/-
# EthP2P.Enr.Rlp — the RLP codec of node records (`enr/rlp.go`)

`decodeRLP` parses one item from the front of its input, an item being a byte string or a list of items;
`encodeBytes` and `encodeRLPList` write them.  Two results connect the parser and the encoders, which
share no code:

* what the parser accepts is canonical: the bytes it consumed are what the encoders write for the item
  (`decodeRLP_canonical`), so no two byte strings decode to one item;
* what the encoders write for a tree of byte strings and lists is accepted, whatever follows it
  (`decodeRLP_encode`).

The parser recurses once per list level.  Its model carries fuel, started at the length of the input; a
second one, with every access checked, comes to the same result without running out (`decodeRLPIn_eq`).
-/
import EthP2P.Lib.BigEndian
import EthP2P.Wire.Codes

namespace EthP2P.Enr

open Lib Wire List

/-! ## The decoder -/

inductive RlpKind where
  | string
  | list
  deriving DecidableEq, Repr

structure RlpItem where
  kind : RlpKind
  payload : Bytes
  raw : Bytes
  children : List RlpItem := []

/-- The errors of `rlp.go`, named after their texts. -/
inductive RlpError where
  | truncatedItem
  | truncatedString
  | truncatedList
  | nonCanonicalString
  | nonCanonicalLongString
  | nonCanonicalLongList
  | invalidLengthPrefix
  | nonCanonicalLengthPrefix
  | lengthExceedsInput
  | integerNotString
  | integerExceeds (size : Nat)
  | integerLeadingZero
  | trailingBytes
  | notByteString
  deriving DecidableEq, Repr

/-- `input[start:stop]`. -/
def slice (input : Bytes) (start stop : Nat) : Bytes := (input.take stop).drop start

/-- The length behind a long prefix, and where the payload starts. -/
def decodeLongLength (input : Bytes) (lengthBytes : Nat) : Except RlpError (Nat × Nat) :=
  if lengthBytes > 8 ∨ input.length < 1 + lengthBytes then .error .invalidLengthPrefix
  else
    let encoded := slice input 1 (1 + lengthBytes)
    if encoded.headD 0 = 0 then .error .nonCanonicalLengthPrefix
    else if beValue encoded > input.length then .error .lengthExceedsInput
    else .ok (beValue encoded, 1 + lengthBytes)

/-- The loop of `decodeRLPList`: items until nothing remains. -/
def decodeChildren (decode : Bytes → Except RlpError (RlpItem × Bytes)) :
    Nat → Bytes → Except RlpError (List RlpItem)
  | _, [] => .ok []
  | 0, _ => .error .truncatedItem
  | fuel + 1, remaining =>
    match decode remaining with
    | .error err => .error err
    | .ok (child, rest) =>
      match decodeChildren decode fuel rest with
      | .error err => .error err
      | .ok children => .ok (child :: children)

def decodeRLPList (decode : Bytes → Except RlpError (RlpItem × Bytes)) (input : Bytes) (start stop : Nat) :
    Except RlpError RlpItem :=
  let payload := slice input start stop
  match decodeChildren decode payload.length payload with
  | .error err => .error err
  | .ok children => .ok { kind := .list, payload := payload, raw := input.take stop, children := children }

/-- `decodeRLP`, at most `fuel` levels deep. -/
def decodeRLPFuel : Nat → Bytes → Except RlpError (RlpItem × Bytes)
  | 0, _ => .error .truncatedItem
  | _ + 1, [] => .error .truncatedItem
  | fuel + 1, lead :: tail =>
    let input := lead :: tail
    if lead < 0x80 then
      .ok ({ kind := .string, payload := [lead], raw := [lead] }, tail)
    else if lead ≤ 0xb7 then
      let length := (lead - 0x80).toNat
      if input.length < 1 + length then .error .truncatedString
      else
        let payload := slice input 1 (1 + length)
        if length = 1 ∧ payload.headD 0 < 0x80 then .error .nonCanonicalString
        else
          .ok ({ kind := .string, payload := payload, raw := input.take (1 + length) }, input.drop (1 + length))
    else if lead ≤ 0xbf then
      match decodeLongLength input (lead - 0xb7).toNat with
      | .error err => .error err
      | .ok (length, offset) =>
        if length < 56 then .error .nonCanonicalLongString
        else if length > input.length - offset then .error .truncatedString
        else
          let stop := offset + length
          .ok ({ kind := .string, payload := slice input offset stop, raw := input.take stop }, input.drop stop)
    else if lead ≤ 0xf7 then
      let length := (lead - 0xc0).toNat
      if input.length < 1 + length then .error .truncatedList
      else
        match decodeRLPList (decodeRLPFuel fuel) input 1 (1 + length) with
        | .error err => .error err
        | .ok item => .ok (item, input.drop (1 + length))
    else
      match decodeLongLength input (lead - 0xf7).toNat with
      | .error err => .error err
      | .ok (length, offset) =>
        if length < 56 then .error .nonCanonicalLongList
        else if length > input.length - offset then .error .truncatedList
        else
          match decodeRLPList (decodeRLPFuel fuel) input offset (offset + length) with
          | .error err => .error err
          | .ok item => .ok (item, input.drop (offset + length))

def decodeRLP (input : Bytes) : Except RlpError (RlpItem × Bytes) := decodeRLPFuel input.length input

/-- `decodeUint[T]` for a type of `size` bytes; a value of at most eight bytes does not wrap. -/
def decodeUint (size : Nat) (item : RlpItem) : Except RlpError Nat :=
  if item.kind ≠ .string then .error .integerNotString
  else if item.payload.length > size then .error (.integerExceeds size)
  else if item.payload.head? = some 0 then .error .integerLeadingZero
  else .ok (beValue item.payload)

def decodeSingleRLP (raw : Bytes) : Except RlpError RlpItem :=
  match decodeRLP raw with
  | .error err => .error err
  | .ok (item, rest) => if rest.length ≠ 0 then .error .trailingBytes else .ok item

def decodeBytes (raw : Bytes) : Except RlpError Bytes :=
  match decodeSingleRLP raw with
  | .error err => .error err
  | .ok item => if item.kind ≠ .string then .error .notByteString else .ok item.payload

/-! ## The encoders -/

/-- Zeros in front of a length are dropped, down to one byte. -/
def trimLength : Bytes → Bytes
  | b :: c :: rest => if b = 0 then trimLength (c :: rest) else b :: c :: rest
  | bs => bs

def encodeLongItem (offset : UInt8) (payload : Bytes) : Bytes :=
  let lengthBytes := trimLength (beBytes 8 payload.length)
  (offset + UInt8.ofNat lengthBytes.length) :: (lengthBytes ++ payload)

def encodeBytes (payload : Bytes) : Bytes :=
  if payload.length = 1 ∧ payload.headD 0 < 0x80 then [payload.headD 0]
  else if payload.length ≤ 55 then (0x80 + UInt8.ofNat payload.length) :: payload
  else encodeLongItem 0xb7 payload

def encodeRLPList (payload : Bytes) : Bytes :=
  if payload.length ≤ 55 then (0xc0 + UInt8.ofNat payload.length) :: payload
  else encodeLongItem 0xf7 payload

/-- `encodeUint`, of a value that is below `2^64`. -/
def encodeUint (value : Nat) : Bytes :=
  if value = 0 then encodeBytes [] else encodeBytes (dropZeros (beBytes 8 value))

/-! ## The two forms of a header -/

theorem slice_append (xs ys zs : Bytes) : slice (xs ++ (ys ++ zs)) xs.length (xs.length + ys.length) = ys := by
  have htake : (xs ++ (ys ++ zs)).take (xs.length + ys.length) = xs ++ ys := by
    rw [← append_assoc, ← length_append]
    exact take_left
  rw [slice, htake, drop_left]

/-- Cutting one item off the front of `header ++ payload ++ rest`. -/
theorem cut_payload (header payload rest : Bytes) :
    slice (header ++ (payload ++ rest)) header.length (header.length + payload.length) = payload ∧
      (header ++ (payload ++ rest)).take (header.length + payload.length) = header ++ payload ∧
      (header ++ (payload ++ rest)).drop (header.length + payload.length) = rest := by
  refine ⟨slice_append header payload rest, ?_, ?_⟩
  · rw [← append_assoc, ← length_append]
    exact take_left
  · rw [← append_assoc, ← length_append]
    exact drop_left

variable {bs : Bytes}

theorem trimLength_eq (h : dropZeros bs ≠ []) : trimLength bs = dropZeros bs := by
  induction bs with
  | nil => exact absurd rfl h
  | cons b bs ih =>
    cases bs with
    | nil =>
      by_cases hb : b = 0
      · subst hb
        exact absurd rfl h
      · simp [trimLength, dropZeros, hb]
    | cons c bs =>
      by_cases hb : b = 0
      · subst hb
        have hdrop : dropZeros (0 :: c :: bs) = dropZeros (c :: bs) := by simp [dropZeros]
        rw [hdrop] at h ⊢
        rw [← ih h]
        simp [trimLength]
      · simp [trimLength, dropZeros, hb]

variable {payload tail rest input : Bytes} {lead : UInt8} {kind : RlpKind} {start stop fuel : Nat}

/-- **A long header**, from any length bytes that have no leading zero. -/
theorem encodeLongItem_eq {lengthBytes : Bytes} (offset : UInt8) (hlen : lengthBytes.length ≤ 8)
    (hne : lengthBytes ≠ []) (hhead : lengthBytes.head? ≠ some 0)
    (hvalue : beValue lengthBytes = payload.length) :
    encodeLongItem offset payload = (offset + UInt8.ofNat lengthBytes.length) :: (lengthBytes ++ payload) := by
  have hdrop : dropZeros (beBytes 8 payload.length) = lengthBytes := by
    rw [← hvalue]
    exact dropZeros_beBytes hlen hhead
  have htrim : trimLength (beBytes 8 payload.length) = lengthBytes := by
    rw [trimLength_eq (hdrop ▸ hne), hdrop]
  simp only [encodeLongItem, htrim]

/-- The length bytes of a payload whose length a machine word can hold. -/
theorem exists_lengthBytes (hpos : payload ≠ []) (hlt : payload.length < 256 ^ 8) :
    ∃ lengthBytes : Bytes, lengthBytes.length ≤ 8 ∧ lengthBytes ≠ [] ∧ lengthBytes.head? ≠ some 0 ∧
      beValue lengthBytes = payload.length := by
  refine ⟨dropZeros (beBytes 8 payload.length), ?_, ?_, head_dropZeros _, beValue_dropZeros hlt⟩
  · have hle := length_dropZeros_le (beBytes 8 payload.length)
    rwa [length_beBytes] at hle
  intro hnil
  have hvalue := beValue_dropZeros hlt
  rw [hnil, beValue_nil] at hvalue
  exact hpos (eq_nil_of_length_eq_zero hvalue.symm)

/-- What `decodeLongLength` found in front of the payload. -/
theorem decodeLongLength_ok {n length offset : Nat} (hn : n ≠ 0)
    (h : decodeLongLength (lead :: tail) n = .ok (length, offset)) :
    ∃ lengthBytes rest, tail = lengthBytes ++ rest ∧ lengthBytes.length = n ∧ n ≤ 8 ∧
      lengthBytes.head? ≠ some 0 ∧ beValue lengthBytes = length ∧ offset = 1 + n := by
  unfold decodeLongLength at h
  split at h
  · cases h
  rename_i hshort
  push Not at hshort
  dsimp only at h
  split at h
  · cases h
  rename_i hhead
  split at h
  · cases h
  cases h
  have hslice : slice (lead :: tail) 1 (1 + n) = tail.take n := by
    rw [slice, Nat.add_comm, take_succ_cons, drop_one, tail_cons]
  have hn' : n ≤ tail.length := by
    have hbound := hshort.2
    rw [length_cons] at hbound
    omega
  rw [hslice] at hhead ⊢
  have hlen : (tail.take n).length = n := length_take_of_le hn'
  refine ⟨tail.take n, tail.drop n, (take_append_drop n tail).symm, hlen, hshort.1, ?_, rfl, rfl⟩
  cases htake : tail.take n with
  | nil =>
    rw [htake] at hlen
    exact absurd hlen.symm hn
  | cons b bs =>
    rw [htake] at hhead
    simpa using hhead

/-- The decoder's side of a long header. -/
theorem decodeLongLength_append {lengthBytes : Bytes} (hlen : lengthBytes.length ≤ 8)
    (hne : lengthBytes ≠ []) (hhead : lengthBytes.head? ≠ some 0) (hvalue : beValue lengthBytes ≤ rest.length) :
    decodeLongLength (lead :: (lengthBytes ++ rest)) lengthBytes.length =
      .ok (beValue lengthBytes, 1 + lengthBytes.length) := by
  have hslice : slice (lead :: (lengthBytes ++ rest)) 1 (1 + lengthBytes.length) = lengthBytes :=
    slice_append [lead] lengthBytes rest
  have hfirst : lengthBytes.headD 0 ≠ 0 := by
    cases lengthBytes with
    | nil => exact absurd rfl hne
    | cons b bs => simpa using hhead
  have hsize : (lead :: (lengthBytes ++ rest)).length = 1 + lengthBytes.length + rest.length := by
    simp only [length_cons, length_append]
    omega
  unfold decodeLongLength
  rw [if_neg (by omega)]
  simp only [hslice]
  rw [if_neg hfirst, if_neg (by omega)]

/-! ## What the decoder accepts -/

/-! Strings and lists have headers of the same two forms, short and long, which differ in the first byte. -/

namespace RlpKind

/-- The encoder of a kind of item, of its payload. -/
def encode : RlpKind → Bytes → Bytes
  | .string => encodeBytes
  | .list => encodeRLPList

def shortBase : RlpKind → UInt8
  | .string => 0x80
  | .list => 0xc0

def longBase : RlpKind → UInt8
  | .string => 0xb7
  | .list => 0xf7

def truncated : RlpKind → RlpError
  | .string => .truncatedString
  | .list => .truncatedList

def nonCanonicalLong : RlpKind → RlpError
  | .string => .nonCanonicalLongString
  | .list => .nonCanonicalLongList

end RlpKind

/-- The kind of a short item, and where its payload starts and ends. -/
def shortHeader (kind : RlpKind) (lead : UInt8) (input : Bytes) : Except RlpError (RlpKind × Nat × Nat) :=
  let length := (lead - kind.shortBase).toNat
  if input.length < 1 + length then .error kind.truncated
  else if kind = .string ∧ length = 1 ∧ (slice input 1 (1 + length)).headD 0 < 0x80 then
    .error .nonCanonicalString
  else .ok (kind, 1, 1 + length)

def longHeader (kind : RlpKind) (lead : UInt8) (input : Bytes) : Except RlpError (RlpKind × Nat × Nat) :=
  match decodeLongLength input (lead - kind.longBase).toNat with
  | .error err => .error err
  | .ok (length, offset) =>
    if length < 56 then .error kind.nonCanonicalLong
    else if length > input.length - offset then .error kind.truncated
    else .ok (kind, offset, offset + length)

def header : Bytes → Except RlpError (RlpKind × Nat × Nat)
  | [] => .error .truncatedItem
  | lead :: tail =>
    if lead < 0x80 then .ok (.string, 0, 1)
    else if lead ≤ 0xb7 then shortHeader .string lead (lead :: tail)
    else if lead ≤ 0xbf then longHeader .string lead (lead :: tail)
    else if lead ≤ 0xf7 then shortHeader .list lead (lead :: tail)
    else longHeader .list lead (lead :: tail)

/-- The item between the bounds of a header. -/
def body (decode : Bytes → Except RlpError (RlpItem × Bytes)) (input : Bytes) :
    RlpKind × Nat × Nat → Except RlpError (RlpItem × Bytes)
  | (.string, start, stop) =>
    .ok (⟨.string, slice input start stop, input.take stop, []⟩, input.drop stop)
  | (.list, start, stop) =>
    match decodeRLPList decode input start stop with
    | .error err => .error err
    | .ok item => .ok (item, input.drop stop)

/-- **One level of the decoder** is a header and a body. -/
theorem decodeRLPFuel_succ (fuel : Nat) (input : Bytes) :
    decodeRLPFuel (fuel + 1) input = (header input).bind (body (decodeRLPFuel fuel) input) := by
  cases input with
  | nil => rfl
  | cons lead tail =>
    simp only [decodeRLPFuel, header, shortHeader, longHeader, RlpKind.shortBase, RlpKind.longBase]
    split
    · rfl
    split
    · split
      · rfl
      simp only [true_and]
      split <;> rfl
    split
    · split
      · rfl
      split
      · rfl
      split <;> rfl
    split
    · simp only [reduceCtorEq, false_and, if_false]
      split <;> rfl
    split
    · rfl
    split
    · rfl
    split <;> rfl

theorem lead_eq (base lead : UInt8) : base + UInt8.ofNat (lead - base).toNat = lead := by
  rw [UInt8.ofNat_toNat, UInt8.add_comm, UInt8.sub_add_cancel]

theorem lead_sub_le {base top : UInt8} (hlow : ¬ lead < base) (hhigh : lead ≤ top) :
    (lead - base).toNat ≤ top.toNat - base.toNat := by
  rw [UInt8.not_lt, UInt8.le_iff_toNat_le] at hlow
  rw [UInt8.le_iff_toNat_le] at hhigh
  rw [UInt8.toNat_sub_of_le _ _ (UInt8.le_iff_toNat_le.mpr hlow)]
  omega

theorem lead_sub_ne_zero {base : UInt8} (h : ¬ lead ≤ base) : (lead - base).toNat ≠ 0 := by
  rw [UInt8.not_le, UInt8.lt_iff_toNat_lt] at h
  rw [UInt8.toNat_sub_of_le _ _ (UInt8.le_iff_toNat_le.mpr h.le)]
  omega

theorem RlpKind.encode_ne_nil (kind : RlpKind) (payload : Bytes) : kind.encode payload ≠ [] := by
  cases kind with
  | string =>
    simp only [encode, encodeBytes, encodeLongItem]
    split
    · exact cons_ne_nil _ _
    split <;> exact cons_ne_nil _ _
  | list =>
    simp only [encode, encodeRLPList, encodeLongItem]
    split <;> exact cons_ne_nil _ _

theorem RlpKind.encode_long (h : 56 ≤ payload.length) :
    kind.encode payload = encodeLongItem kind.longBase payload := by
  cases kind with
  | string => exact (if_neg (by omega)).trans (if_neg (by omega))
  | list => exact if_neg (by omega)

theorem RlpKind.encode_short (h : payload.length ≤ 55)
    (hsingle : ¬ (kind = .string ∧ payload.length = 1 ∧ payload.headD 0 < 0x80)) :
    kind.encode payload = (kind.shortBase + UInt8.ofNat payload.length) :: payload := by
  cases kind with
  | string => exact (if_neg (by simpa using hsingle)).trans (if_pos h)
  | list => exact if_pos h

/-- What a header says: the bounds of a payload, in front of which is what the encoder writes. -/
structure Frames (input : Bytes) (kind : RlpKind) (start stop : Nat) : Prop where
  le : start ≤ stop
  within : stop ≤ input.length
  raw : input.take stop = kind.encode (slice input start stop)

theorem shortHeader_ok (kind : RlpKind) {k : RlpKind} (hlead : (lead - kind.shortBase).toNat ≤ 55)
    (h : shortHeader kind lead (lead :: tail) = .ok (k, start, stop)) : Frames (lead :: tail) k start stop := by
  unfold shortHeader at h
  dsimp only at h
  split at h
  · cases h
  rename_i hfits
  split at h
  · cases h
  rename_i hcanonical
  obtain ⟨rfl, rfl, rfl⟩ : kind = k ∧ 1 = start ∧ 1 + (lead - kind.shortBase).toNat = stop := by simpa using h
  have hslice : slice (lead :: tail) 1 (1 + (lead - kind.shortBase).toNat) =
      tail.take (lead - kind.shortBase).toNat := by
    rw [slice, Nat.add_comm, take_succ_cons, drop_one, tail_cons]
  have hlen : (tail.take (lead - kind.shortBase).toNat).length = (lead - kind.shortBase).toNat := by
    rw [length_cons] at hfits
    exact length_take_of_le (by omega)
  rw [hslice] at hcanonical
  refine ⟨Nat.le_add_right _ _, Nat.le_of_not_lt hfits, ?_⟩
  rw [hslice, RlpKind.encode_short (by omega) (by rwa [hlen]), hlen, lead_eq, Nat.add_comm, take_succ_cons]

theorem longHeader_ok (kind : RlpKind) {k : RlpKind} (hlead : (lead - kind.longBase).toNat ≠ 0)
    (h : longHeader kind lead (lead :: tail) = .ok (k, start, stop)) : Frames (lead :: tail) k start stop := by
  unfold longHeader at h
  split at h
  · cases h
  rename_i length offset hlong
  split at h
  · cases h
  rename_i hcanonical
  split at h
  · cases h
  rename_i hfits
  obtain ⟨rfl, rfl, rfl⟩ : kind = k ∧ offset = start ∧ offset + length = stop := by simpa using h
  obtain ⟨lengthBytes, rest, rfl, hlen, hle, hhead, hvalue, rfl⟩ := decodeLongLength_ok hlead hlong
  simp only [length_cons, length_append] at hfits
  have hsplit : lead :: (lengthBytes ++ rest) =
      (lead :: lengthBytes) ++ (rest.take length ++ rest.drop length) := by
    rw [take_append_drop, cons_append]
  have htake : (rest.take length).length = length := length_take_of_le (by omega)
  have hne : lengthBytes ≠ [] := by
    rintro rfl
    exact hlead hlen.symm
  have hoffset : 1 + (lead - kind.longBase).toNat = (lead :: lengthBytes).length := by
    rw [length_cons, hlen, Nat.add_comm]
  obtain ⟨hslice, hraw, -⟩ := cut_payload (lead :: lengthBytes) (rest.take length) (rest.drop length)
  rw [← hsplit, htake, ← hoffset] at hslice hraw
  refine ⟨Nat.le_add_right _ _, ?_, ?_⟩
  · simp only [length_cons, length_append]
    omega
  rw [hslice, hraw, RlpKind.encode_long (by omega),
    encodeLongItem_eq kind.longBase (by omega) hne hhead (hvalue.trans htake.symm), hlen, lead_eq]
  rfl

/-- **What a header accepts.** -/
theorem header_ok (h : header input = .ok (kind, start, stop)) : Frames input kind start stop := by
  cases input with
  | nil => cases h
  | cons lead tail =>
    rw [header] at h
    split at h
    · -- one byte below 0x80 is its own encoding
      rename_i hlead
      obtain ⟨rfl, rfl, rfl⟩ : RlpKind.string = kind ∧ 0 = start ∧ 1 = stop := by simpa using h
      refine ⟨by omega, by simp, ?_⟩
      simp [slice, RlpKind.encode, encodeBytes, hlead]
    rename_i hlow
    split at h
    · rename_i hlead
      have hle : (lead - 0x80).toNat ≤ 55 := by simpa using lead_sub_le hlow hlead
      exact shortHeader_ok .string hle h
    rename_i hshort
    split at h
    · exact longHeader_ok .string (lead_sub_ne_zero hshort) h
    rename_i hstring
    split at h
    · rename_i hlead
      have hlist : ¬ lead < 0xc0 := by
        rw [UInt8.not_le, UInt8.lt_iff_toNat_lt] at hstring
        rw [UInt8.not_lt, UInt8.le_iff_toNat_le]
        exact hstring
      have hle : (lead - 0xc0).toNat ≤ 55 := by simpa using lead_sub_le hlist hlead
      exact shortHeader_ok .list hle h
    · rename_i hlead
      exact longHeader_ok .list (lead_sub_ne_zero hlead) h

/-- **What one level of the decoder accepts**: an item written by its encoder, in front of the rest. -/
theorem decodeRLPFuel_ok {item : RlpItem} (h : decodeRLPFuel (fuel + 1) input = .ok (item, rest)) :
    input = item.raw ++ rest ∧
      (item = ⟨.string, item.payload, encodeBytes item.payload, []⟩ ∨
        item = ⟨.list, item.payload, encodeRLPList item.payload, item.children⟩ ∧
          decodeChildren (decodeRLPFuel fuel) item.payload.length item.payload = .ok item.children) := by
  rw [decodeRLPFuel_succ] at h
  cases hheader : header input with
  | error err =>
    rw [hheader] at h
    cases h
  | ok bounds =>
    obtain ⟨kind, start, stop⟩ := bounds
    have hframes := (header_ok hheader).raw
    rw [hheader] at h
    change body (decodeRLPFuel fuel) input (kind, start, stop) = .ok (item, rest) at h
    cases kind with
    | string =>
      cases h
      refine ⟨(take_append_drop _ _).symm, .inl ?_⟩
      rw [hframes]
      rfl
    | list =>
      simp only [body, decodeRLPList] at h
      split at h
      · cases h
      rename_i item' hitem
      split at hitem
      · cases hitem
      rename_i children hchildren
      cases hitem
      cases h
      refine ⟨(take_append_drop _ _).symm, .inr ⟨?_, hchildren⟩⟩
      rw [hframes]
      rfl

/-- An item and, inside a list, every item of it is what its encoder writes. -/
inductive RlpItem.Canonical : RlpItem → Prop where
  | string (payload : Bytes) : Canonical ⟨.string, payload, encodeBytes payload, []⟩
  | list (children : List RlpItem) (h : ∀ child ∈ children, child.Canonical) :
      Canonical ⟨.list, children.flatMap (·.raw), encodeRLPList (children.flatMap (·.raw)), children⟩

variable {decode : Bytes → Except RlpError (RlpItem × Bytes)} {children : List RlpItem}

/-- The loop over a list's payload takes it apart. -/
theorem decodeChildren_ok {P : RlpItem → Prop}
    (hdecode : ∀ input item rest, decode input = .ok (item, rest) → P item ∧ input = item.raw ++ rest)
    (h : decodeChildren decode fuel bs = .ok children) :
    (∀ child ∈ children, P child) ∧ bs = children.flatMap (·.raw) := by
  induction fuel generalizing bs children with
  | zero =>
    cases bs with
    | nil =>
      cases h
      simp
    | cons b bs => cases h
  | succ fuel ih =>
    cases bs with
    | nil =>
      cases h
      simp
    | cons b bs =>
      simp only [decodeChildren] at h
      split at h
      · cases h
      rename_i child rest hchild
      split at h
      · cases h
      rename_i children' hrest
      cases h
      obtain ⟨hP, hinput⟩ := hdecode _ _ _ hchild
      obtain ⟨hall, hbytes⟩ := ih hrest
      refine ⟨?_, ?_⟩
      · intro c hc
        rcases mem_cons.mp hc with rfl | hc
        · exact hP
        · exact hall c hc
      · rw [hinput, hbytes, flatMap_cons]

/-- **What the decoder accepts is canonical**, at every level: the bytes it consumed are the encoding of
the item, and the rest is left alone. -/
theorem decodeRLPFuel_canonical {item : RlpItem}
    (h : decodeRLPFuel fuel input = .ok (item, rest)) : item.Canonical ∧ input = item.raw ++ rest := by
  induction fuel generalizing input item rest with
  | zero => cases h
  | succ fuel ih =>
    obtain ⟨hinput, hitem | ⟨hitem, hchildren⟩⟩ := decodeRLPFuel_ok h
    · rw [hitem]
      exact ⟨.string _, hitem ▸ hinput⟩
    obtain ⟨hall, hpayload⟩ := decodeChildren_ok (fun _ _ _ => ih) hchildren
    refine ⟨?_, hinput⟩
    rw [hitem, hpayload]
    exact .list item.children hall

theorem decodeRLP_canonical {item : RlpItem} (h : decodeRLP input = .ok (item, rest)) :
    item.Canonical ∧ input = item.raw ++ rest :=
  decodeRLPFuel_canonical h

/-- A canonical string, in front of the field it is read as. -/
theorem RlpItem.Canonical.raw_string {item : RlpItem} (h : item.Canonical) (hkind : item.kind = .string) :
    item.raw = encodeBytes item.payload := by
  cases h with
  | string payload => rfl
  | list children h => cases hkind

theorem RlpItem.Canonical.raw_list {item : RlpItem} (h : item.Canonical) (hkind : item.kind = .list) :
    item.raw = encodeRLPList (item.children.flatMap (·.raw)) ∧ ∀ child ∈ item.children, child.Canonical := by
  cases h with
  | string payload => cases hkind
  | list children h => exact ⟨rfl, h⟩

/-- An integer is read from its only encoding. -/
theorem RlpItem.Canonical.raw_uint {item : RlpItem} {value : Nat} (h : item.Canonical)
    (hvalue : decodeUint 8 item = .ok value) : item.raw = encodeUint value ∧ value < 256 ^ 8 := by
  unfold decodeUint at hvalue
  split at hvalue
  · cases hvalue
  rename_i hkind
  split at hvalue
  · cases hvalue
  rename_i hlen
  split at hvalue
  · cases hvalue
  rename_i hhead
  cases hvalue
  have hlen' : item.payload.length ≤ 8 := Nat.le_of_not_lt hlen
  have hbytes := dropZeros_beBytes hlen' hhead
  refine ⟨?_, ?_⟩
  · rw [h.raw_string (not_not.mp hkind)]
    unfold encodeUint
    split
    · rename_i hzero
      rw [hzero] at hbytes
      rw [← hbytes]
      rfl
    · rw [hbytes]
  · calc beValue item.payload < 256 ^ item.payload.length := beValue_lt _
      _ ≤ 256 ^ 8 := Nat.pow_le_pow_right (by decide) hlen'

/-! ## What the encoders write -/

/-- A tree of byte strings and lists. -/
inductive Rlp where
  | bytes (b : Bytes)
  | list (items : List Rlp)

namespace Rlp

mutual

/-- The canonical encoding of a tree. -/
def encode : Rlp → Bytes
  | .bytes b => encodeBytes b
  | .list items => encodeRLPList (encodeAll items)

/-- The encodings of a list's items, joined. -/
def encodeAll : List Rlp → Bytes
  | [] => []
  | t :: ts => encode t ++ encodeAll ts

end

mutual

/-- The item that the encoding of a tree is decoded to. -/
def item : Rlp → RlpItem
  | .bytes b => ⟨.string, b, encodeBytes b, []⟩
  | .list items => ⟨.list, encodeAll items, encodeRLPList (encodeAll items), itemAll items⟩

def itemAll : List Rlp → List RlpItem
  | [] => []
  | t :: ts => item t :: itemAll ts

end

end Rlp

theorem length_lt_encodeRLPList (payload : Bytes) : payload.length < (encodeRLPList payload).length := by
  unfold encodeRLPList encodeLongItem
  split
  · simp
  · simp only [length_cons, length_append]
    omega

theorem length_le_encodeBytes (payload : Bytes) : payload.length ≤ (encodeBytes payload).length := by
  unfold encodeBytes encodeLongItem
  split
  · simp only [length_singleton]
    omega
  split
  · simp
  · simp only [length_cons, length_append]
    omega

variable {base : UInt8} {n fuel start stop : Nat} {payload input : Bytes}

section

variable (h : base.toNat + n < 256)
include h

/-- The first byte of a header, read back and compared. -/
theorem lead_add : (base + UInt8.ofNat n).toNat = base.toNat + n := by
  rw [UInt8.toNat_add, UInt8.toNat_ofNat']
  omega

theorem lead_add_sub : (base + UInt8.ofNat n - base).toNat = n := by
  have hle : base ≤ base + UInt8.ofNat n := by
    rw [UInt8.le_iff_toNat_le, lead_add h]
    omega
  rw [UInt8.toNat_sub_of_le _ _ hle, lead_add h]
  omega

theorem lead_le_iff (top : UInt8) : base + UInt8.ofNat n ≤ top ↔ base.toNat + n ≤ top.toNat := by
  rw [UInt8.le_iff_toNat_le, lead_add h]

theorem lead_lt_iff (top : UInt8) : base + UInt8.ofNat n < top ↔ base.toNat + n < top.toNat := by
  rw [UInt8.lt_iff_toNat_lt, lead_add h]

end

/-- A first byte in the range of a kind selects its form. -/
theorem header_short (kind : RlpKind) (hn : n ≤ 55) (tail : Bytes) :
    header ((kind.shortBase + UInt8.ofNat n) :: tail) =
      shortHeader kind (kind.shortBase + UInt8.ofNat n) ((kind.shortBase + UInt8.ofNat n) :: tail) := by
  cases kind with
  | string =>
    have hbase : RlpKind.string.shortBase.toNat + n < 256 := show 128 + n < 256 by omega
    simp only [header, lead_lt_iff hbase, lead_le_iff hbase]
    rw [if_neg, if_pos]
    · exact show 128 + n ≤ 183 by omega
    · exact show ¬ 128 + n < 128 by omega
  | list =>
    have hbase : RlpKind.list.shortBase.toNat + n < 256 := show 192 + n < 256 by omega
    simp only [header, lead_lt_iff hbase, lead_le_iff hbase]
    rw [if_neg, if_neg, if_neg, if_pos]
    · exact show 192 + n ≤ 247 by omega
    · exact show ¬ 192 + n ≤ 191 by omega
    · exact show ¬ 192 + n ≤ 183 by omega
    · exact show ¬ 192 + n < 128 by omega

theorem header_long (kind : RlpKind) (hn : n ≤ 8) (hpos : n ≠ 0) (tail : Bytes) :
    header ((kind.longBase + UInt8.ofNat n) :: tail) =
      longHeader kind (kind.longBase + UInt8.ofNat n) ((kind.longBase + UInt8.ofNat n) :: tail) := by
  cases kind with
  | string =>
    have hbase : RlpKind.string.longBase.toNat + n < 256 := show 183 + n < 256 by omega
    simp only [header, lead_lt_iff hbase, lead_le_iff hbase]
    rw [if_neg, if_neg, if_pos]
    · exact show 183 + n ≤ 191 by omega
    · exact show ¬ 183 + n ≤ 183 by omega
    · exact show ¬ 183 + n < 128 by omega
  | list =>
    have hbase : RlpKind.list.longBase.toNat + n < 256 := show 247 + n < 256 by omega
    simp only [header, lead_lt_iff hbase, lead_le_iff hbase]
    rw [if_neg, if_neg, if_neg, if_neg]
    · exact show ¬ 247 + n ≤ 247 by omega
    · exact show ¬ 247 + n ≤ 191 by omega
    · exact show ¬ 247 + n ≤ 183 by omega
    · exact show ¬ 247 + n < 128 by omega

/-- **The header of what an encoder writes**, whatever follows it. -/
theorem header_encode (kind : RlpKind) (h : payload.length < 256 ^ 8) (rest : Bytes) :
    ∃ start, header (kind.encode payload ++ rest) = .ok (kind, start, (kind.encode payload).length) ∧
      slice (kind.encode payload ++ rest) start (kind.encode payload).length = payload := by
  by_cases hsingle : kind = .string ∧ payload.length = 1 ∧ payload.headD 0 < 0x80
  · obtain ⟨rfl, hone, hb⟩ := hsingle
    obtain ⟨b, rfl⟩ := length_eq_one_iff.mp hone
    have hencode : RlpKind.string.encode [b] = [b] := if_pos ⟨hone, hb⟩
    rw [hencode]
    exact ⟨0, if_pos hb, rfl⟩
  rcases Nat.lt_or_ge 55 payload.length with hlong | hshort
  · obtain ⟨lengthBytes, hlen, hne, hhead, hvalue⟩ := exists_lengthBytes (by rintro rfl; simp at hlong) h
    have hpos : lengthBytes.length ≠ 0 := fun hz => hne (eq_nil_of_length_eq_zero hz)
    have hbase : kind.longBase.toNat + lengthBytes.length < 256 := by
      cases kind with
      | string => exact show 183 + lengthBytes.length < 256 by omega
      | list => exact show 247 + lengthBytes.length < 256 by omega
    rw [RlpKind.encode_long hlong, encodeLongItem_eq kind.longBase hlen hne hhead hvalue, cons_append,
      header_long kind hlen hpos, longHeader, lead_add_sub hbase, append_assoc,
      decodeLongLength_append hlen hne hhead (by simp only [length_append]; omega)]
    dsimp only
    rw [hvalue, if_neg (by omega), if_neg (by simp only [length_cons, length_append]; omega)]
    obtain ⟨hslice, -, -⟩ := cut_payload ((kind.longBase + UInt8.ofNat lengthBytes.length) :: lengthBytes) payload rest
    simp only [length_cons, cons_append] at hslice
    simp only [length_cons, length_append]
    refine ⟨1 + lengthBytes.length, by rw [Nat.add_comm 1, Nat.add_right_comm], ?_⟩
    rw [Nat.add_comm 1, Nat.add_right_comm]
    exact hslice
  · have hbase : kind.shortBase.toNat + payload.length < 256 := by
      cases kind with
      | string => exact show 128 + payload.length < 256 by omega
      | list => exact show 192 + payload.length < 256 by omega
    obtain ⟨hslice, -, -⟩ := cut_payload [kind.shortBase + UInt8.ofNat payload.length] payload rest
    simp only [length_singleton, singleton_append] at hslice
    rw [RlpKind.encode_short hshort hsingle, cons_append, header_short kind hshort, shortHeader]
    simp only [lead_add_sub hbase, hslice]
    rw [if_neg (by simp only [length_cons, length_append]; omega), if_neg hsingle, length_cons,
      Nat.add_comm payload.length]
    exact ⟨1, rfl, hslice⟩

/-- One level of the round trip, for byte strings. -/
theorem decodeRLPFuel_encodeBytes (h : payload.length < 256 ^ 8) (fuel : Nat) (rest : Bytes) :
    decodeRLPFuel (fuel + 1) (encodeBytes payload ++ rest) =
      .ok (⟨.string, payload, encodeBytes payload, []⟩, rest) := by
  obtain ⟨start, hheader, hslice⟩ := header_encode .string h rest
  rw [decodeRLPFuel_succ]
  change header (encodeBytes payload ++ rest) = _ at hheader
  rw [hheader]
  change Except.ok (RlpItem.mk .string (slice (RlpKind.string.encode payload ++ rest) start _) _ _, _) = _
  rw [hslice]
  simp [RlpKind.encode]

/-- One level of the round trip, for lists whose items decode. -/
theorem decodeRLPFuel_encodeRLPList (h : payload.length < 256 ^ 8)
    (hchildren : decodeChildren (decodeRLPFuel fuel) payload.length payload = .ok children) (rest : Bytes) :
    decodeRLPFuel (fuel + 1) (encodeRLPList payload ++ rest) =
      .ok (⟨.list, payload, encodeRLPList payload, children⟩, rest) := by
  obtain ⟨start, hheader, hslice⟩ := header_encode .list h rest
  rw [decodeRLPFuel_succ]
  change header (encodeRLPList payload ++ rest) = _ at hheader
  change slice (encodeRLPList payload ++ rest) _ _ = _ at hslice
  rw [hheader]
  simp only [Except.bind, body, decodeRLPList, hslice, hchildren]
  simp [RlpKind.encode]

namespace Rlp

theorem encode_ne_nil (t : Rlp) : t.encode ≠ [] := by
  cases t with
  | bytes b => exact RlpKind.encode_ne_nil .string b
  | list items => exact RlpKind.encode_ne_nil .list _

theorem raw_item (t : Rlp) : t.item.raw = t.encode := by
  cases t <;> rfl

mutual

/-- **What the encoders write is read back**, whatever follows it: the parser gets to the end of the
encoding with as much fuel as it has bytes. -/
theorem decodeRLPFuel_encode (t : Rlp) (fuel : Nat) (rest : Bytes) (hword : t.encode.length < 256 ^ 8)
    (hfuel : t.encode.length ≤ fuel) : decodeRLPFuel fuel (t.encode ++ rest) = .ok (t.item, rest) := by
  have hpos : t.encode.length ≠ 0 := fun hz => t.encode_ne_nil (eq_nil_of_length_eq_zero hz)
  obtain ⟨fuel, rfl⟩ : ∃ n, fuel = n + 1 := ⟨fuel - 1, by omega⟩
  match t with
  | .bytes b =>
    have hb := length_le_encodeBytes b
    exact decodeRLPFuel_encodeBytes (lt_of_le_of_lt hb hword) fuel rest
  | .list items =>
    have hlt := length_lt_encodeRLPList (encodeAll items)
    rw [encode] at hword hfuel
    exact decodeRLPFuel_encodeRLPList (by omega)
      (decodeChildren_encodeAll items fuel _ (by omega) (by omega) le_rfl) rest

theorem decodeChildren_encodeAll (ts : List Rlp) (fuel n : Nat) (hword : (encodeAll ts).length < 256 ^ 8)
    (hfuel : (encodeAll ts).length ≤ fuel) (hn : (encodeAll ts).length ≤ n) :
    decodeChildren (decodeRLPFuel fuel) n (encodeAll ts) = .ok (itemAll ts) := by
  match ts with
  | [] => cases n <;> rfl
  | t :: ts =>
    have hpos : t.encode.length ≠ 0 := fun hz => t.encode_ne_nil (eq_nil_of_length_eq_zero hz)
    simp only [encodeAll, length_append] at hword hfuel hn
    obtain ⟨n, rfl⟩ : ∃ m, n = m + 1 := ⟨n - 1, by omega⟩
    have hchild := decodeRLPFuel_encode t fuel (encodeAll ts) (by omega) (by omega)
    have hrest := decodeChildren_encodeAll ts fuel n (by omega) (by omega) (by omega)
    have hcons : ∃ b bs, encodeAll (t :: ts) = b :: bs := by
      cases hall : encodeAll (t :: ts) with
      | nil =>
        rw [encodeAll, append_eq_nil_iff] at hall
        exact absurd hall.1 t.encode_ne_nil
      | cons b bs => exact ⟨b, bs, rfl⟩
    obtain ⟨b, bs, hbs⟩ := hcons
    rw [← encodeAll] at hchild
    rw [hbs] at hchild ⊢
    simp only [decodeChildren, hchild, hrest, itemAll]

end

theorem decodeRLP_encode (t : Rlp) (rest : Bytes) (hword : t.encode.length < 256 ^ 8) :
    decodeRLP (t.encode ++ rest) = .ok (t.item, rest) := by
  apply decodeRLPFuel_encode t _ rest hword
  simp

end Rlp

/-! ## Ranges and depth

The decoder once more, with every slice and index checked: `none` is an access out of range, or a
recursion or loop that is not over when its fuel is.  It never happens (`decodeRLPIn_eq`). -/

/-- `input[start:stop]`, which panics out of range. -/
def sliceIn (input : Bytes) (start stop : Nat) : Option Bytes :=
  if start ≤ stop ∧ stop ≤ input.length then some (slice input start stop) else none

def decodeLongLengthIn (input : Bytes) (lengthBytes : Nat) : Option (Except RlpError (Nat × Nat)) :=
  if lengthBytes > 8 ∨ input.length < 1 + lengthBytes then some (.error .invalidLengthPrefix)
  else do
    let encoded ← sliceIn input 1 (1 + lengthBytes)
    let first ← encoded[0]?
    if first = 0 then some (.error .nonCanonicalLengthPrefix)
    else if beValue encoded > input.length then some (.error .lengthExceedsInput)
    else some (.ok (beValue encoded, 1 + lengthBytes))

def decodeChildrenIn (decode : Bytes → Option (Except RlpError (RlpItem × Bytes))) :
    Nat → Bytes → Option (Except RlpError (List RlpItem))
  | _, [] => some (.ok [])
  | 0, _ => none
  | fuel + 1, remaining => do
    match ← decode remaining with
    | .error err => some (.error err)
    | .ok (child, rest) =>
      match ← decodeChildrenIn decode fuel rest with
      | .error err => some (.error err)
      | .ok children => some (.ok (child :: children))

/-- The string between two bounds, and what follows it. -/
def stringIn (input : Bytes) (start stop : Nat) : Option (Except RlpError (RlpItem × Bytes)) := do
  let payload ← sliceIn input start stop
  let raw ← sliceIn input 0 stop
  let rest ← sliceIn input stop input.length
  some (.ok ({ kind := .string, payload := payload, raw := raw }, rest))

/-- The list between two bounds, by `decodeRLPList`, and what follows it. -/
def listIn (decode : Bytes → Option (Except RlpError (RlpItem × Bytes))) (input : Bytes) (start stop : Nat) :
    Option (Except RlpError (RlpItem × Bytes)) := do
  let payload ← sliceIn input start stop
  match ← decodeChildrenIn decode payload.length payload with
  | .error err => some (.error err)
  | .ok children =>
    let raw ← sliceIn input 0 stop
    let rest ← sliceIn input stop input.length
    some (.ok ({ kind := .list, payload := payload, raw := raw, children := children }, rest))

def decodeRLPIn : Nat → Bytes → Option (Except RlpError (RlpItem × Bytes))
  | 0, _ => none
  | _ + 1, [] => some (.error .truncatedItem)
  | fuel + 1, lead :: tail =>
    let input := lead :: tail
    if lead < 0x80 then stringIn input 0 1
    else if lead ≤ 0xb7 then
      let length := (lead - 0x80).toNat
      if input.length < 1 + length then some (.error .truncatedString)
      else do
        let payload ← sliceIn input 1 (1 + length)
        -- `payload[0]` is read only where the payload has one byte
        let first ← if length = 1 then payload[0]? else some 0x80
        if first < 0x80 then some (.error .nonCanonicalString) else stringIn input 1 (1 + length)
    else if lead ≤ 0xbf then do
      match ← decodeLongLengthIn input (lead - 0xb7).toNat with
      | .error err => some (.error err)
      | .ok (length, offset) =>
        if length < 56 then some (.error .nonCanonicalLongString)
        else if length > input.length - offset then some (.error .truncatedString)
        else stringIn input offset (offset + length)
    else if lead ≤ 0xf7 then
      let length := (lead - 0xc0).toNat
      if input.length < 1 + length then some (.error .truncatedList)
      else listIn (decodeRLPIn fuel) input 1 (1 + length)
    else do
      match ← decodeLongLengthIn input (lead - 0xf7).toNat with
      | .error err => some (.error err)
      | .ok (length, offset) =>
        if length < 56 then some (.error .nonCanonicalLongList)
        else if length > input.length - offset then some (.error .truncatedList)
        else listIn (decodeRLPIn fuel) input offset (offset + length)

theorem sliceIn_eq (h : start ≤ stop) (hlen : stop ≤ input.length) :
    sliceIn input start stop = some (slice input start stop) :=
  if_pos ⟨h, hlen⟩

/-- The bytes up to a bound and behind it. -/
theorem sliceIn_ends (hlen : stop ≤ input.length) :
    sliceIn input 0 stop = some (input.take stop) ∧ sliceIn input stop input.length = some (input.drop stop) := by
  rw [sliceIn_eq (Nat.zero_le _) hlen, sliceIn_eq hlen le_rfl, slice, slice, drop_zero, take_length]
  exact ⟨rfl, rfl⟩

theorem decodeLongLengthIn_eq (input : Bytes) (hn : n ≠ 0) :
    decodeLongLengthIn input n = some (decodeLongLength input n) := by
  unfold decodeLongLengthIn decodeLongLength
  split
  · rfl
  rename_i hfits
  push Not at hfits
  have hlen : (slice input 1 (1 + n)).length = n := by
    rw [slice, length_drop, length_take]
    omega
  rw [sliceIn_eq (by omega) hfits.2]
  cases hs : slice input 1 (1 + n) with
  | nil =>
    rw [hs] at hlen
    exact absurd hlen.symm hn
  | cons b bs =>
    by_cases hzero : b = 0
    · simp [hzero]
    · simp only [Option.bind_eq_bind, Option.bind_some, getElem?_cons_zero, headD_cons, hzero, if_false]
      split <;> rfl

theorem stringIn_eq (decode : Bytes → Except RlpError (RlpItem × Bytes))
    (h : start ≤ stop) (hlen : stop ≤ input.length) :
    stringIn input start stop = some (body decode input (.string, start, stop)) := by
  obtain ⟨hraw, hrest⟩ := sliceIn_ends hlen
  simp only [stringIn, sliceIn_eq h hlen, hraw, hrest]
  rfl

variable {decodeIn : Bytes → Option (Except RlpError (RlpItem × Bytes))}

/-- The loop over a list's payload is checked where its items are, and every item takes a byte. -/
theorem decodeChildrenIn_eq {size : Nat} (hsame : ∀ bs, bs.length ≤ size → decodeIn bs = some (decode bs))
    (hrest : ∀ input item rest, decode input = .ok (item, rest) → rest.length < input.length)
    (hfuel : bs.length ≤ fuel) (hsize : bs.length ≤ size) :
    decodeChildrenIn decodeIn fuel bs = some (decodeChildren decode fuel bs) := by
  induction fuel generalizing bs with
  | zero =>
    obtain rfl := eq_nil_of_length_eq_zero (Nat.le_zero.mp hfuel)
    rfl
  | succ fuel ih =>
    cases bs with
    | nil => rfl
    | cons b bs =>
      simp only [decodeChildrenIn, decodeChildren, hsame _ hsize, Option.bind_eq_bind, Option.bind_some]
      cases hd : decode (b :: bs) with
      | error err => rfl
      | ok found =>
        have hlt := hrest _ _ _ hd
        have hloop : decodeChildrenIn decodeIn fuel found.2 = some (decodeChildren decode fuel found.2) :=
          ih (by omega) (by omega)
        simp only [hloop, Option.bind_some]
        cases decodeChildren decode fuel found.2 with
        | error err => rfl
        | ok children => rfl

theorem listIn_eq (hsame : ∀ bs, bs.length < input.length → decodeIn bs = some (decode bs))
    (hrest : ∀ input item rest, decode input = .ok (item, rest) → rest.length < input.length) (hpos : 0 < start)
    (h : start ≤ stop) (hlen : stop ≤ input.length) :
    listIn decodeIn input start stop = some (body decode input (.list, start, stop)) := by
  obtain ⟨hraw, htail⟩ := sliceIn_ends hlen
  have hsize : (slice input start stop).length ≤ input.length - 1 := by
    rw [slice, length_drop, length_take]
    omega
  have hchildren := decodeChildrenIn_eq (fun bs hbs => hsame bs (by omega)) hrest le_rfl hsize
  simp only [listIn, sliceIn_eq h hlen, Option.bind_eq_bind, Option.bind_some, hchildren, hraw, htail, body,
    decodeRLPList]
  cases decodeChildren decode (slice input start stop).length (slice input start stop) with
  | error err | ok children => rfl

theorem length_rest_lt (input : Bytes) (item : RlpItem) (rest : Bytes)
    (h : decodeRLPFuel fuel input = .ok (item, rest)) : rest.length < input.length := by
  obtain ⟨hcanonical, rfl⟩ := decodeRLPFuel_canonical h
  have hne : item.raw ≠ [] := by
    cases hcanonical with
    | string payload => exact RlpKind.encode_ne_nil .string payload
    | list children _ => exact RlpKind.encode_ne_nil .list _
  have hpos := length_pos_iff.mpr hne
  rw [length_append]
  omega

/-- **No access is out of range, and the recursion ends**: with more fuel than the input has bytes the
checked decoder comes to the decoder's result. -/
theorem decodeRLPIn_eq {m : Nat} (hn : input.length < n) (hm : input.length ≤ m) :
    decodeRLPIn n input = some (decodeRLPFuel m input) := by
  induction n generalizing m input with
  | zero => omega
  | succ n ih =>
    cases input with
    | nil => cases m <;> rfl
    | cons lead tail =>
      rw [length_cons] at hn hm
      obtain ⟨m, rfl⟩ : ∃ k, m = k + 1 := ⟨m - 1, by omega⟩
      have hsame : ∀ bs : Bytes, bs.length < (lead :: tail).length →
          decodeRLPIn n bs = some (decodeRLPFuel m bs) := by
        intro bs hbs
        rw [length_cons] at hbs
        exact ih (by omega) (by omega)
      have hlist : ∀ {start stop : Nat}, 0 < start → start ≤ stop → stop ≤ (lead :: tail).length →
          listIn (decodeRLPIn n) (lead :: tail) start stop =
            some (body (decodeRLPFuel m) (lead :: tail) (.list, start, stop)) :=
        listIn_eq hsame length_rest_lt
      rw [decodeRLPFuel_succ, decodeRLPIn, header]
      dsimp only
      by_cases hlow : lead < 0x80
      · rw [if_pos hlow, if_pos hlow]
        exact stringIn_eq (decodeRLPFuel m) (Nat.zero_le _) (by simp)
      rw [if_neg hlow, if_neg hlow]
      by_cases hshort : lead ≤ 0xb7
      · rw [if_pos hshort, if_pos hshort, shortHeader, RlpKind.shortBase]
        by_cases hfits : (lead :: tail).length < 1 + (lead - 0x80).toNat
        · rw [if_pos hfits, if_pos hfits]
          rfl
        rw [if_neg hfits, if_neg hfits, sliceIn_eq (Nat.le_add_right _ _) (Nat.le_of_not_lt hfits)]
        have hstring := stringIn_eq (decodeRLPFuel m) (Nat.le_add_right 1 (lead - 0x80).toNat) (Nat.le_of_not_lt hfits)
        by_cases hone : (lead - 0x80).toNat = 1
        · cases tail with
          | nil => simp [hone] at hfits
          | cons b tail =>
            have hslice : slice (lead :: b :: tail) 1 (1 + 1) = [b] := rfl
            simp only [hone, hslice] at hstring ⊢
            by_cases hb : b < 0x80
            · simp [hb, Except.bind]
            · simp [hb, Except.bind, hstring]
        · simp [hone, Except.bind, hstring]
      rw [if_neg hshort, if_neg hshort]
      by_cases hstring : lead ≤ 0xbf
      · rw [if_pos hstring, if_pos hstring, longHeader, decodeLongLengthIn_eq _ (lead_sub_ne_zero hshort)]
        simp only [RlpKind.longBase, Option.bind_eq_bind, Option.bind_some]
        cases decodeLongLength (lead :: tail) (lead - 0xb7).toNat with
        | error err => rfl
        | ok found =>
          dsimp only
          split
          · rfl
          split
          · rfl
          exact stringIn_eq (decodeRLPFuel m) (Nat.le_add_right _ _) (by omega)
      rw [if_neg hstring, if_neg hstring]
      by_cases hlead : lead ≤ 0xf7
      · rw [if_pos hlead, if_pos hlead, shortHeader, RlpKind.shortBase]
        by_cases hfits : (lead :: tail).length < 1 + (lead - 0xc0).toNat
        · rw [if_pos hfits, if_pos hfits]
          rfl
        · rw [if_neg hfits, if_neg hfits, if_neg (by simp)]
          exact hlist Nat.one_pos (Nat.le_add_right _ _) (Nat.le_of_not_lt hfits)
      rw [if_neg hlead, if_neg hlead, longHeader, decodeLongLengthIn_eq _ (lead_sub_ne_zero hlead)]
      simp only [RlpKind.longBase, Option.bind_eq_bind, Option.bind_some]
      cases hlong : decodeLongLength (lead :: tail) (lead - 0xf7).toNat with
      | error err => rfl
      | ok found =>
        obtain ⟨_, _, _, _, _, _, _, hoffset⟩ := decodeLongLength_ok (lead_sub_ne_zero hlead) hlong
        dsimp only
        split
        · rfl
        split
        · rfl
        exact hlist (by omega) (Nat.le_add_right _ _) (by omega)

/-! ## Items and trees -/

namespace RlpItem

mutual

/-- The tree of an item. -/
def tree : RlpItem → Rlp
  | ⟨.string, payload, _, _⟩ => .bytes payload
  | ⟨.list, _, _, children⟩ => .list (treeAll children)

def treeAll : List RlpItem → List Rlp
  | [] => []
  | item :: items => tree item :: treeAll items

end

/-- A canonical item is encoded again to its own bytes. -/
theorem Canonical.encode_tree {item : RlpItem} (h : item.Canonical) : item.tree.encode = item.raw := by
  induction h with
  | string payload => rfl
  | list children _ ih =>
    have hall : ∀ items : List RlpItem, (∀ c ∈ items, c.tree.encode = c.raw) →
        Rlp.encodeAll (treeAll items) = items.flatMap (·.raw) := by
      intro items hitems
      induction items with
      | nil => rfl
      | cons c items ih =>
        rw [treeAll, Rlp.encodeAll, flatMap_cons, hitems c mem_cons_self,
          ih fun c' hc' => hitems c' (mem_cons_of_mem _ hc')]
    rw [tree, Rlp.encode, hall children ih]

end RlpItem

mutual

theorem Rlp.tree_item (t : Rlp) : t.item.tree = t := by
  match t with
  | .bytes b => rfl
  | .list items => rw [Rlp.item, RlpItem.tree, Rlp.treeAll_itemAll items]

theorem Rlp.treeAll_itemAll (ts : List Rlp) : RlpItem.treeAll (Rlp.itemAll ts) = ts := by
  match ts with
  | [] => rfl
  | t :: ts => rw [Rlp.itemAll, RlpItem.treeAll, Rlp.tree_item t, Rlp.treeAll_itemAll ts]

end

/-- **RLP is a bijection** between trees and accepted byte strings: what is decoded is canonical at every
level and encodes to the bytes it was read from, what is encoded is decoded, and the decoder always ends,
without an access out of range. -/
theorem rlp_bijection :
    (∀ (input rest : Bytes) (item : RlpItem), decodeRLP input = .ok (item, rest) →
      input = item.raw ++ rest ∧ item.Canonical ∧
        (item.kind = .list → item.payload = item.children.flatMap (·.raw)) ∧ item.tree.encode = item.raw) ∧
    (∀ (t : Rlp) (suffix : Bytes), (t.encode ++ suffix).length < 2 ^ 63 →
      ∃ item, decodeRLP (t.encode ++ suffix) = .ok (item, suffix) ∧ item.tree = t ∧ item.raw = t.encode) ∧
    ∀ input : Bytes, decodeRLPIn (input.length + 1) input = some (decodeRLP input) := by
  refine ⟨?_, ?_, fun input => decodeRLPIn_eq (Nat.lt_succ_self _) le_rfl⟩
  · intro input rest item h
    obtain ⟨hcanonical, hinput⟩ := decodeRLP_canonical h
    refine ⟨hinput, hcanonical, ?_, hcanonical.encode_tree⟩
    intro hkind
    cases hcanonical with
    | string payload => cases hkind
    | list children _ => rfl
  · intro t suffix hlen
    rw [length_append] at hlen
    exact ⟨t.item, Rlp.decodeRLP_encode t suffix (by omega), t.tree_item, t.raw_item⟩

/-- A list of a byte string and an empty list, in front of one more byte. -/
theorem rlp_bijection_nested :
    ∃ item, decodeRLP ((Rlp.list [.bytes [0x80], .list []]).encode ++ [7]) = .ok (item, [7]) ∧
      item.tree.encode = [0xc3, 0x81, 0x80, 0xc0] := by
  obtain ⟨hdecoded, hencoded, -⟩ := rlp_bijection
  obtain ⟨item, hitem, htree, hraw⟩ := hencoded (.list [.bytes [0x80], .list []]) [7] (by decide)
  refine ⟨item, hitem, ?_⟩
  rw [(hdecoded _ _ _ hitem).2.2.2, hraw]
  decide

end EthP2P.Enr
