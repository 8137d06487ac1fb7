/-
# EthP2P.Wire.Frame — stream headers and frames (`wire/wire.go`)

A stream begins with a header, the selector of its protocol, and goes on in frames: a type, a length and
that many bytes.  Numbers are minimal varints.  A reader is a function of the bytes still to come, which
end where the stream does; it returns its result together with the bytes it has not read.  So
`readFrame_appendFrame` says both that a frame is taken back and that nothing behind it is.
-/
import EthP2P.Lib.Varint
import EthP2P.Wire.Codes

namespace EthP2P.Wire

open Lib List

/-- The family whose header would begin like a multistream-select one. -/
def reservedFamily : Nat := 19

def maxHeaderLen : Nat := 10

def maxFieldLen : Nat := 5

/-- What can be wrong with a stream header. -/
inductive HeaderError where
  | notMinimal
  | exceeds32Bits
  | reserved
  deriving DecidableEq, Repr

inductive ReadError where
  | eof
  | unexpectedEOF
  /-- The overflow of `binary.ReadUvarint`. -/
  | overflow
  /-- A frame's type or length is not a minimal varint. -/
  | frameLength
  | frameTooLarge
  | invalidHeader (e : HeaderError)
  /-- The end of `ReadSelector`, which panics there. -/
  | unreachable
  deriving DecidableEq, Repr

/-- Family and protocol are 32-bit numbers. -/
structure Selector where
  family : UInt32
  protocol : UInt32
  deriving DecidableEq, Repr

/-! ## Frames -/

def appendFrameHead (dst : Bytes) (typ : UInt64) (length : Nat) : Bytes :=
  dst ++ varint typ.toNat ++ varint length

def appendFrame (dst : Bytes) (typ : UInt64) (payload : Bytes) : Bytes :=
  appendFrameHead dst typ payload.length ++ payload

def ReadError.ofVarint : VarintError → ReadError
  | .eof => .eof
  | .unexpectedEOF => .unexpectedEOF
  | .overflow => .overflow

def readMinimalUvarint (input : Bytes) : Except ReadError Nat × Bytes :=
  match readVarint input with
  | (.error e, rest) => (.error (.ofVarint e), rest)
  | (.ok value, rest) =>
    -- the bytes read, against those the encoder needs
    if input.length - rest.length ≠ (varint value).length then (.error .frameLength, rest)
    else (.ok value, rest)

/-- An end of the input inside a frame is unexpected. -/
def ReadError.inside : ReadError → ReadError
  | .eof => .unexpectedEOF
  | e => e

def readFrame (input : Bytes) (maxLen : Nat) : Except ReadError (UInt64 × Bytes) × Bytes :=
  match readMinimalUvarint input with
  | (.error e, rest) => (.error e, rest)
  | (.ok typ, rest) =>
    match readMinimalUvarint rest with
    | (.error e, rest) => (.error e.inside, rest)
    | (.ok length, rest) =>
      if length > maxLen then (.error .frameTooLarge, rest)
      else if rest.length < length then (.error .unexpectedEOF, [])
      else (.ok (UInt64.ofNat typ, rest.take length), rest.drop length)

variable {v maxLen : Nat} {payload : Bytes}

theorem readMinimalUvarint_varint (hv : v < 2 ^ 64) (rest : Bytes) :
    readMinimalUvarint (varint v ++ rest) = (.ok v, rest) := by
  simp only [readMinimalUvarint, readVarint_varint hv]
  rw [if_neg]
  simp

/-- What is read is the encoder's own bytes: a longer form of the number has been refused. -/
theorem readMinimalUvarint_ok {input rest : Bytes} (h : readMinimalUvarint input = (.ok v, rest)) :
    input = varint v ++ rest ∧ v < 2 ^ 64 := by
  unfold readMinimalUvarint at h
  split at h
  · cases h
  rename_i value rest' hread
  split at h
  · cases h
  rename_i hlen
  obtain ⟨rfl, rfl⟩ : value = v ∧ rest' = rest := by simpa using h
  obtain ⟨w, read, rfl, hw, hlt, -, hmin⟩ := readVarintLoop_ok (n := 9) (i := 0) (x := 0) rfl (by decide) hread
  obtain rfl : value = w := by simpa using hw
  rw [not_not, length_append, Nat.add_sub_cancel] at hlen
  refine ⟨?_, by simpa using hlt⟩
  rw [hmin hlen]
  rfl

/-- The end of the input inside a varint, or in front of it. -/
theorem readMinimalUvarint_take {k : Nat} (hv : v < 2 ^ 64) (hk : k < (varint v).length) :
    readMinimalUvarint ((varint v).take k) = (.error (if k = 0 then .eof else .unexpectedEOF), []) := by
  have hread : readVarint ((varint v).take k) = (.error (if 0 + k > 0 then .unexpectedEOF else .eof), []) :=
    readVarintLoop_take (n := 9) (i := 0) (x := 0) rfl (by decide) (by simpa using hv) hk
  simp only [readMinimalUvarint, hread]
  cases k with
  | zero | succ k => rfl

theorem append_appendFrame (dst : Bytes) (typ : UInt64) (payload : Bytes) :
    appendFrame dst typ payload = dst ++ (varint typ.toNat ++ (varint payload.length ++ payload)) := by
  simp [appendFrame, appendFrameHead]

variable (typ : UInt64)

/-- `ReadFrame` behind the type and the length of a frame. -/
theorem readFrame_head {length : Nat} (hlen : length < 2 ^ 64) (rest : Bytes) (maxLen : Nat) :
    readFrame (appendFrameHead [] typ length ++ rest) maxLen =
      if length > maxLen then (.error .frameTooLarge, rest)
      else if rest.length < length then (.error .unexpectedEOF, [])
      else (.ok (typ, rest.take length), rest.drop length) := by
  simp only [readFrame, appendFrameHead, nil_append, append_assoc,
    readMinimalUvarint_varint typ.toNat_lt, readMinimalUvarint_varint hlen, UInt64.ofNat_toNat]

/-- A frame within the limit is read back, and what follows it stays unread. -/
theorem readFrame_appendFrame (payload suffix : Bytes) (hlen : payload.length ≤ maxLen) (hmax : maxLen < 2 ^ 64) :
    readFrame (appendFrame [] typ payload ++ suffix) maxLen = (.ok (typ, payload), suffix) := by
  rw [appendFrame, append_assoc, readFrame_head typ (lt_of_le_of_lt hlen hmax), if_neg (by omega),
    if_neg (by simp)]
  simp

/-- **Only a frame's own encoding is accepted**, and nothing behind it is consumed. -/
theorem readFrame_ok {input rest : Bytes} {typ : UInt64}
    (h : readFrame input maxLen = (.ok (typ, payload), rest)) :
    input = appendFrame [] typ payload ++ rest ∧ payload.length ≤ maxLen := by
  unfold readFrame at h
  split at h
  · cases h
  rename_i t rest₁ htyp
  split at h
  · cases h
  rename_i length rest₂ hlength
  split at h
  · cases h
  rename_i hmax
  split at h
  · cases h
  rename_i hfits
  obtain ⟨⟨rfl, rfl⟩, rfl⟩ : (UInt64.ofNat t = typ ∧ rest₂.take length = payload) ∧
    rest₂.drop length = rest := by simpa using h
  obtain ⟨rfl, ht⟩ := readMinimalUvarint_ok htyp
  obtain ⟨rfl, -⟩ := readMinimalUvarint_ok hlength
  have htake : (rest₂.take length).length = length := length_take_of_le (Nat.le_of_not_lt hfits)
  refine ⟨?_, by omega⟩
  rw [append_appendFrame, htake, UInt64.toNat_ofNat', Nat.mod_eq_of_lt ht]
  simp

/-- **A frame that is cut short**: only in front of its first byte is the end of the input expected. -/
theorem readFrame_take {k : Nat} (hlen : payload.length ≤ maxLen) (hmax : maxLen < 2 ^ 64)
    (hk : k < (appendFrame [] typ payload).length) :
    readFrame ((appendFrame [] typ payload).take k) maxLen = (.error (if k = 0 then .eof else .unexpectedEOF), []) := by
  have hsize : payload.length < 2 ^ 64 := lt_of_le_of_lt hlen hmax
  rw [append_appendFrame, nil_append] at hk ⊢
  rw [length_append, length_append] at hk
  rw [take_append]
  by_cases htyp : k < (varint typ.toNat).length
  · -- inside the type
    rw [Nat.sub_eq_zero_of_le htyp.le, take_zero, append_nil, readFrame, readMinimalUvarint_take typ.toNat_lt htyp]
  have hpos : k ≠ 0 := by
    have := length_pos_iff.mpr (varintFuel_ne_nil 9 typ.toNat)
    rintro rfl
    exact htyp this
  rw [take_of_length_le (Nat.le_of_not_lt htyp), if_neg hpos, take_append]
  generalize hj : k - (varint typ.toNat).length = j
  by_cases hlength : j < (varint payload.length).length
  · -- inside the length
    rw [Nat.sub_eq_zero_of_le hlength.le, take_zero, append_nil, readFrame, readMinimalUvarint_varint typ.toNat_lt]
    dsimp only
    rw [readMinimalUvarint_take hsize hlength]
    cases j with
    | zero | succ j => rfl
  · -- inside the payload
    rw [take_of_length_le (Nat.le_of_not_lt hlength), ← append_assoc]
    have hhead := readFrame_head typ hsize (payload.take (j - (varint payload.length).length)) maxLen
    rw [appendFrameHead, nil_append] at hhead
    rw [hhead, if_neg (by omega), if_pos (by rw [length_take]; omega)]

theorem readFrame_cut {typ : UInt64} {cut missing : Bytes} (hlen : payload.length ≤ maxLen)
    (hmax : maxLen < 2 ^ 64) (hframe : cut ++ missing = appendFrame [] typ payload) (hmissing : missing ≠ []) :
    readFrame cut maxLen = (.error (if cut = [] then .eof else .unexpectedEOF), []) := by
  have hk : cut.length < (appendFrame [] typ payload).length := by
    have := length_pos_iff.mpr hmissing
    rw [← hframe, length_append]
    omega
  have htake : (appendFrame [] typ payload).take cut.length = cut := by
    rw [← hframe, take_left]
  have hread := readFrame_take typ hlen hmax hk
  rw [htake] at hread
  rw [hread]
  simp only [length_eq_zero_iff]

/-- **The frame codec**: a frame within the limit is read back and what follows it is left alone; a longer
one is refused in front of its payload; a frame has one accepted encoding; and a frame cut short is an
unexpected end, unless nothing of it is there. -/
theorem readFrame_inverts_appendFrame :
    (∀ (typ : UInt64) (payload suffix : Bytes) (maxLen : Nat), payload.length < 2 ^ 63 → maxLen < 2 ^ 63 →
      readFrame (appendFrame [] typ payload ++ suffix) maxLen =
        if payload.length ≤ maxLen then (.ok (typ, payload), suffix)
        else (.error .frameTooLarge, payload ++ suffix)) ∧
    (∀ (input : Bytes) (maxLen : Nat) (typ : UInt64) (payload rest : Bytes),
      readFrame input maxLen = (.ok (typ, payload), rest) → input = appendFrame [] typ payload ++ rest) ∧
    ∀ (typ : UInt64) (payload cut missing : Bytes) (maxLen : Nat), payload.length ≤ maxLen → maxLen < 2 ^ 63 →
      cut ++ missing = appendFrame [] typ payload → missing ≠ [] →
      (readFrame cut maxLen).1 = .error (if cut = [] then .eof else .unexpectedEOF) := by
  refine ⟨?_, fun _ _ _ _ _ h => (readFrame_ok h).1, ?_⟩
  · intro typ payload suffix maxLen hpayload hmax
    split
    · rename_i hlen
      exact readFrame_appendFrame typ payload suffix hlen (by omega)
    · rename_i hlen
      rw [appendFrame, append_assoc, readFrame_head typ (by omega), if_pos (by omega)]
  intro typ payload cut missing maxLen hlen hmax hframe hmissing
  rw [readFrame_cut hlen (by omega) hframe hmissing]

/-- A payload of one byte, read back and cut. -/
theorem readFrame_inverts_appendFrame_one :
    readFrame (appendFrame [] 1 [7] ++ [9]) 1 = (.ok (1, [7]), [9]) ∧
      readFrame (appendFrame [] 1 [7] ++ [9]) 0 = (.error .frameTooLarge, [7, 9]) ∧
      ([1, 1] : Bytes) ++ [7] = appendFrame [] 1 [7] ∧ (readFrame [1, 1] 1).1 = .error .unexpectedEOF := by
  obtain ⟨hread, -, hcut⟩ := readFrame_inverts_appendFrame
  have hframe : ([1, 1] : Bytes) ++ [7] = appendFrame [] 1 [7] := by decide
  exact ⟨hread 1 [7] [9] 1 (by decide) (by decide), hread 1 [7] [9] 0 (by decide) (by decide), hframe,
    hcut 1 [7] [1, 1] [7] 1 (by decide) (by decide) hframe (by decide)⟩

/-! ## Stream headers -/

def appendSelector (dst : Bytes) (selector : Selector) : Bytes :=
  dst ++ varint selector.family.toNat ++ varint selector.protocol.toNat

/-- The loop of `parseField` at byte number `i`; `none` where the bytes end inside a field valid so far. -/
def parseFieldFrom : Nat → Nat → Bytes → Except HeaderError (Option (UInt32 × Nat))
  | i, _, [] => if i ≥ maxFieldLen then .error .exceeds32Bits else .ok none
  | i, value, b :: rest =>
    if i ≥ maxFieldLen then .error .exceeds32Bits
    else
      let value := value ||| ((b &&& 0x7f).toNat <<< (7 * i))
      if b < 0x80 then
        if i > 0 ∧ b = 0 then .error .notMinimal
        else if value ≥ 2 ^ 32 then .error .exceeds32Bits
        else .ok (some (UInt32.ofNat value, i + 1))
      else parseFieldFrom (i + 1) value rest

/-- One header field and its length. -/
def parseField (b : Bytes) : Except HeaderError (Option (UInt32 × Nat)) := parseFieldFrom 0 0 b

/-- The header at the start of `b` and its length, or `none` if `b` holds only part of a valid one. -/
def parseSelector (b : Bytes) : Except HeaderError (Option (Selector × Nat)) :=
  match parseField b with
  | .error e => .error e
  | .ok none => .ok none
  | .ok (some (family, n)) =>
    if family.toNat = reservedFamily then .error .reserved
    else
      match parseField (b.drop n) with
      | .error e => .error e
      | .ok none => .ok none
      | .ok (some (protocol, m)) => .ok (some (⟨family, protocol⟩, n + m))

/-- The loop of `ReadSelector` with `head` read and room for `left` bytes more. -/
def readSelectorFrom : Nat → Bytes → Bytes → Except ReadError Selector × Bytes
  | 0, _, input => (.error .unreachable, input)
  | _ + 1, head, [] => (.error (if head = [] then .eof else .unexpectedEOF), [])
  | left + 1, head, b :: rest =>
    match parseSelector (head ++ [b]) with
    | .error e => (.error (.invalidHeader e), rest)
    | .ok (some (selector, _)) => (.ok selector, rest)
    | .ok none => readSelectorFrom left (head ++ [b]) rest

def readSelector (input : Bytes) : Except ReadError Selector × Bytes := readSelectorFrom maxHeaderLen [] input

end EthP2P.Wire
