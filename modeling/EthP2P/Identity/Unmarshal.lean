/-
# EthP2P.Identity.Unmarshal — `UnmarshalPubKey` (`identity/identity.go`)

The parser is a loop over protobuf fields.  It keeps the last value of the two fields it knows and skips the others, so
it reads every key back, and it accepts more than `Marshal` writes: fields in another order (`reversed_accepted`),
repeated or unknown ones, and longer varints.  No accepted encoding is shorter than that of `Marshal`, and of those
of its length there is one that begins with the key type.

Of `protowire` the results assume `Protowire.Lawful`, which `Protowire.plain` has.
-/
import EthP2P.Enr.Record

namespace EthP2P.Identity

open Lib Wire List Enr

namespace Protowire

/-! ## The parser -/

variable (pw : Protowire)

/-- One turn of the loop, from the key type and the key data so far. -/
def unmarshalField (keyType : Nat) (keyData : Option Bytes) (wire : Bytes) : Option (Nat × Option Bytes × Bytes) :=
  match pw.consumeTag wire with
  | none => none
  | some ((number, wireType), wire) =>
    if number = 1 ∧ wireType = 0 then (pw.consumeVarint wire).map fun (keyType, wire) => (keyType, keyData, wire)
    else if number = 2 ∧ wireType = 2 then
      (pw.consumeBytes wire).map fun (keyData, wire) => (keyType, some keyData, wire)
    else (pw.consumeFieldValue number wireType wire).map fun wire => (keyType, keyData, wire)

/-- The loop of `UnmarshalPubKey`.  Every turn consumes a tag, so the length of the input is enough fuel. -/
def unmarshalLoop : Nat → Nat → Option Bytes → Bytes → Option (Nat × Option Bytes)
  | 0, keyType, keyData, wire => if wire = [] then some (keyType, keyData) else none
  | fuel + 1, keyType, keyData, wire =>
    if wire = [] then some (keyType, keyData)
    else
      match pw.unmarshalField keyType keyData wire with
      | none => none
      | some (keyType, keyData, wire) => unmarshalLoop fuel keyType keyData wire

/-! ## What is assumed of `protowire` -/

structure Lawful : Prop where
  varint : Shortest (· < 2 ^ 64) pw.appendVarint pw.consumeVarint
  tag : Shortest (fun t => 0 < t.1 ∧ t.1 < 2 ^ 31 ∧ t.2 < 8) pw.appendTag pw.consumeTag
  bytes : Shortest (·.length < 2 ^ 64) pw.appendBytes pw.consumeBytes
  fieldValue : ∀ {number typ b rest}, pw.consumeFieldValue number typ b = some rest → rest.length ≤ b.length
  /-- The format, with one byte for a number below 128. -/
  varint_eq : ∀ v < 0x80, pw.appendVarint v = [UInt8.ofNat v]
  tag_eq : ∀ number typ, typ < 8 → pw.appendTag (number, typ) = pw.appendVarint (8 * number + typ)
  bytes_eq : ∀ data, pw.appendBytes data = pw.appendVarint data.length ++ data

namespace Lawful

variable {pw : Protowire} {b wire rest data : Bytes} {number typ fuel keyType keyType' : Nat} {keyData : Option Bytes}

/-- The field of the key data. -/
def dataField (pw : Protowire) (data : Bytes) : Bytes := pw.appendTag (2, 2) ++ pw.appendBytes data

/-- What one turn does: it reads the key data, in no less than their field and in that field if not in more, or leaves
those it had. -/
theorem unmarshalField_ok (law : pw.Lawful) {keyData' : Option Bytes}
    (h : pw.unmarshalField keyType keyData wire = some (keyType', keyData', rest)) :
    rest.length < wire.length ∧ (keyData' = keyData ∨ keyType' = keyType ∧ ∃ data, keyData' = some data ∧
      (dataField pw data).length + rest.length ≤ wire.length ∧
      (wire.length = (dataField pw data).length + rest.length → wire = dataField pw data ++ rest)) := by
  unfold unmarshalField at h
  split at h
  · cases h
  rename_i number typ wire' htag
  obtain ⟨tag, rfl, htag, htag'⟩ := law.tag.least htag
  have hpos := length_pos_iff.mpr (law.tag.nonempty (number, typ))
  rw [length_append]
  split at h
  · obtain ⟨⟨v, rest⟩, hv, heq⟩ := Option.map_eq_some_iff.mp h
    cases heq
    obtain ⟨read, rfl, -⟩ := law.varint.least hv
    exact ⟨by rw [length_append]; omega, .inl rfl⟩
  split at h
  · rename_i hfield
    obtain ⟨⟨data, rest⟩, hdata, heq⟩ := Option.map_eq_some_iff.mp h
    cases heq
    obtain ⟨rfl, rfl⟩ := hfield
    obtain ⟨read, rfl, hread, hread'⟩ := law.bytes.least hdata
    simp only [dataField, length_append]
    refine ⟨by omega, .inr ⟨trivial, data, rfl, by omega, fun heq => ?_⟩⟩
    rw [htag' (by omega), hread' (by omega), append_assoc]
  · obtain ⟨rest, hvalue, heq⟩ := Option.map_eq_some_iff.mp h
    cases heq
    have hle := law.fieldValue hvalue
    exact ⟨by omega, .inl rfl⟩

/-- From a state of the loop to the key data and the key type it returns: it had the data, or it reads them, and then
nothing shorter than their field is enough and nothing else fits into that length. -/
def Gathers (pw : Protowire) (keyData : Option Bytes) (keyType : Nat) (wire data : Bytes) (keyType' : Nat) : Prop :=
  (keyData = some data ∧ (wire = [] → keyType' = keyType)) ∨
    ((dataField pw data).length ≤ wire.length ∧ (wire.length = (dataField pw data).length →
      wire = dataField pw data ∧ keyType' = keyType))

theorem unmarshalLoop_ok (law : pw.Lawful)
    (h : pw.unmarshalLoop fuel keyType keyData wire = some (keyType', some data)) :
    Gathers pw keyData keyType wire data keyType' := by
  induction fuel generalizing keyType keyData wire with
  | zero =>
    unfold unmarshalLoop at h
    split at h <;> cases h
    exact .inl ⟨rfl, fun _ => rfl⟩
  | succ fuel ih =>
    unfold unmarshalLoop at h
    split at h
    · cases h
      exact .inl ⟨rfl, fun _ => rfl⟩
    rename_i hwire
    split at h
    · cases h
    rename_i rest hfield
    obtain ⟨hlt, hkept | ⟨rfl, data', rfl, hle, hshort⟩⟩ := law.unmarshalField_ok hfield
    · rw [hkept] at h
      rcases ih h with ⟨hhad, -⟩ | ⟨hread, -⟩
      · exact .inl ⟨hhad, fun hnil => absurd hnil hwire⟩
      · exact .inr ⟨by omega, by omega⟩
    · rcases ih h with ⟨hhad, hlast⟩ | ⟨hread, -⟩
      · cases hhad
        refine .inr ⟨by omega, fun heq => ?_⟩
        obtain rfl : rest = [] := length_eq_zero_iff.mp (by omega)
        exact ⟨by rw [hshort (by simpa using heq), append_nil], hlast rfl⟩
      · exact .inr ⟨by omega, by omega⟩

section

variable (law : pw.Lawful) (fuel keyType : Nat) (keyData : Option Bytes) (wire : Bytes)
include law

theorem unmarshalLoop_field {keyData' : Option Bytes}
    (h : pw.unmarshalField keyType keyData wire = some (keyType', keyData', rest)) :
    pw.unmarshalLoop (fuel + 1) keyType keyData wire = pw.unmarshalLoop fuel keyType' keyData' rest := by
  have hlt := (law.unmarshalField_ok h).1
  rw [unmarshalLoop, if_neg (by rintro rfl; exact Nat.not_lt_zero _ hlt), h]

theorem unmarshalLoop_type :
    pw.unmarshalLoop (fuel + 1) keyType keyData (pw.appendTag (1, 0) ++ (pw.appendVarint 2 ++ wire)) =
      pw.unmarshalLoop fuel 2 keyData wire := by
  apply law.unmarshalLoop_field
  simp only [unmarshalField, law.tag.back (1, 0) _ (by decide), law.varint.back 2 wire (by decide)]
  rfl

theorem unmarshalLoop_data (hdata : data.length = 33) :
    pw.unmarshalLoop (fuel + 1) keyType keyData (dataField pw data ++ wire) =
      pw.unmarshalLoop fuel keyType (some data) wire := by
  apply law.unmarshalLoop_field
  rw [dataField, append_assoc]
  simp only [unmarshalField, law.tag.back (2, 2) _ (by decide), law.bytes.back data wire (by rw [hdata]; decide)]
  rfl

end

end Lawful

end Protowire

inductive UnmarshalError where
  | malformed
  | unsupportedKey
  | key (e : KeyError)
  deriving DecidableEq

namespace Secp256k1

variable {Priv Pub : Type} {lib : Secp256k1 Priv Pub}

def UnmarshalPubKey (lib : Secp256k1 Priv Pub) (wire : Bytes) : Except UnmarshalError Pub :=
  match lib.unmarshalLoop wire.length 0 none wire with
  | none => .error .malformed
  | some (_, none) => .error .unsupportedKey
  | some (keyType, some keyData) =>
    if keyType ≠ secp256k1KeyType then .error .unsupportedKey
    else
      match lib.ParsePubKey keyData with
      | .error e => .error (.key e)
      | .ok key => .ok key

/-- What the library parses is what it serializes. -/
def Canonical (lib : Secp256k1 Priv Pub) : Prop :=
  ∀ b key, b.length = compressedLen → lib.parsePubKey b = some key → lib.serializeCompressed key = b

/-- What an accepted input holds. -/
theorem unmarshalPubKey_ok {wire : Bytes} {key : Pub} (h : lib.UnmarshalPubKey wire = .ok key) :
    ∃ data, lib.unmarshalLoop wire.length 0 none wire = some (2, some data) ∧ data.length = 33 ∧
      lib.parsePubKey data = some key := by
  unfold UnmarshalPubKey ParsePubKey at h
  split at h
  case h_1 | h_2 => cases h
  rename_i keyType data hloop
  split at h
  · cases h
  rename_i htype
  split at h
  · cases h
  rename_i key' hparse
  cases h
  split at hparse
  · cases hparse
  rename_i hlen
  split at hparse
  · cases hparse
  rename_i hkey
  cases hparse
  exact ⟨data, by rw [hloop, not_not.mp htype]; rfl, not_not.mp hlen, hkey⟩

open Protowire.Lawful (dataField)

/-- A loop that found the two fields of a key gives it. -/
theorem unmarshalPubKey_of_loop (h : lib.ReadsKeys) {key : Pub} {wire : Bytes} (hlen : wire.length = 37)
    (hloop : lib.unmarshalLoop 37 0 none wire = some (2, some (lib.serializeCompressed key))) :
    lib.UnmarshalPubKey wire = .ok key := by
  simp [UnmarshalPubKey, hlen, hloop, parsePubKey_serialize lib h, secp256k1KeyType]

section

variable (law : lib.Lawful)
include law

theorem typeField_eq : lib.appendTag (1, 0) = [8] ∧ lib.appendVarint 2 = [2] := by
  rw [law.tag_eq 1 0 (by decide), law.varint_eq _ (by decide), law.varint_eq _ (by decide)]
  exact ⟨rfl, rfl⟩

theorem dataField_eq {data : Bytes} (hlen : data.length = 33) :
    dataField lib.toProtowire data = 18 :: 33 :: data := by
  rw [dataField, law.tag_eq 2 2 (by decide), law.bytes_eq, hlen, law.varint_eq _ (by decide),
    law.varint_eq _ (by decide)]
  rfl

variable (h : lib.ReadsKeys) (key : Pub)
include h

theorem marshal_eq : lib.Marshal key = 8 :: 2 :: 18 :: 33 :: lib.serializeCompressed key := by
  obtain ⟨htag, htype⟩ := typeField_eq law
  rw [← dataField_eq law (h key).1, dataField, Marshal, htag, secp256k1KeyType, htype]
  simp

/-- **The key type may come last.** -/
theorem reversed_accepted :
    lib.UnmarshalPubKey (18 :: 33 :: (lib.serializeCompressed key ++ [8, 2])) = .ok key ∧
      18 :: 33 :: (lib.serializeCompressed key ++ [8, 2]) ≠ lib.Marshal key := by
  have hlen : (lib.serializeCompressed key).length = 33 := (h key).1
  refine ⟨unmarshalPubKey_of_loop h (by simp [hlen]) ?_, ?_⟩
  · have hdata := law.unmarshalLoop_data 36 0 none [8, 2] hlen
    have htype := law.unmarshalLoop_type 35 0 (some (lib.serializeCompressed key)) []
    rw [dataField_eq law hlen] at hdata
    rw [(typeField_eq law).1, (typeField_eq law).2] at htype
    exact hdata.trans htype
  · rw [marshal_eq law h]
    simp

end

/-- **Every key is read back**, and of the accepted encodings of a key `Marshal` writes the one of its length that begins
with the key type. -/
theorem unmarshalPubKey_inverts (lib : Secp256k1 Priv Pub) (law : lib.Lawful) (hreads : lib.ReadsKeys)
    (hcanon : lib.Canonical) :
    (∀ key, lib.UnmarshalPubKey (lib.Marshal key) = .ok key) ∧
    ∀ wire key, lib.UnmarshalPubKey wire = .ok key →
      (wire = lib.Marshal key ↔ wire.length = 37 ∧ wire.head? = some 8) := by
  have hlength : ∀ key, (lib.serializeCompressed key).length = 33 := fun key => (hreads key).1
  obtain ⟨htag, htype⟩ := typeField_eq law
  refine ⟨fun key => ?_, fun wire key h => ⟨?_, ?_⟩⟩
  · have hloop := law.unmarshalLoop_type 36 0 none (dataField lib.toProtowire (lib.serializeCompressed key))
    have hdata := law.unmarshalLoop_data 35 2 none [] (hlength key)
    rw [append_nil] at hdata
    rw [hdata, htag, htype, dataField_eq law (hlength key)] at hloop
    rw [marshal_eq law hreads]
    exact unmarshalPubKey_of_loop hreads (by simp [hlength]) hloop
  · rintro rfl
    rw [marshal_eq law hreads]
    exact ⟨by simp [hlength], rfl⟩
  rintro ⟨hlen, hhead⟩
  obtain ⟨data, hloop, hdata, hkey⟩ := unmarshalPubKey_ok h
  obtain ⟨wire, rfl⟩ : ∃ rest, wire = lib.appendTag (1, 0) ++ rest := by
    rw [htag]
    exact ⟨_, (cons_head?_tail hhead).symm⟩
  -- the key type comes first, and what it leaves has room for the key data only
  rw [hlen, Protowire.unmarshalLoop, if_neg (by simp [htag])] at hloop
  simp only [Protowire.unmarshalField, law.tag.back (1, 0) wire (by decide), and_self, if_true] at hloop
  split at hloop
  · cases hloop
  rename_i hread
  obtain ⟨⟨keyType, wire'⟩, hv, heq⟩ := Option.map_eq_some_iff.mp hread
  cases heq
  obtain ⟨taken, rfl, hle, hshort⟩ := law.varint.least hv
  have hpos := length_pos_iff.mpr (law.varint.nonempty keyType)
  rcases law.unmarshalLoop_ok hloop with ⟨hhad, -⟩ | ⟨hroom, hfield⟩
  · cases hhad
  rw [dataField_eq law hdata] at hroom hfield
  simp only [htag, length_append, length_cons, length_nil] at hlen hroom hfield
  obtain ⟨rfl, rfl⟩ := hfield (by omega)
  rw [hshort (by rw [htype] at hle ⊢; simp at hle ⊢; omega), marshal_eq law hreads, hcanon data key hdata hkey, htag,
    htype]
  rfl

/-! ## The key of the example -/

end Secp256k1

namespace Protowire

theorem plain_varint : Shortest (· < 2 ^ 64) plain.appendVarint plain.consumeVarint where
  nonempty v := varintFuel_ne_nil 9 v
  back v rest hv := by simp [plain, readVarint_varint hv]
  least {b v rest} h := by
    simp only [plain] at h
    split at h <;> cases h
    rename_i hread
    obtain ⟨w, read, rfl, hv, -, hle, hmin⟩ := readVarintLoop_ok (n := 9) (i := 0) (x := 0) rfl (by decide) hread
    obtain rfl : v = w := by simpa using hv
    exact ⟨read, rfl, hle, hmin⟩

theorem plain_tag : Shortest (fun t => 0 < t.1 ∧ t.1 < 2 ^ 31 ∧ t.2 < 8) plain.appendTag plain.consumeTag where
  nonempty t := varintFuel_ne_nil 9 _
  back t rest ht := by
    have hv := plain_varint.back (8 * t.1 + t.2) rest (by omega)
    change (plain.consumeVarint (plain.appendVarint (8 * t.1 + t.2) ++ rest)).bind _ = _
    rw [hv, Option.bind_some, if_neg (by dsimp only; omega), show (8 * t.1 + t.2) / 8 = t.1 by omega,
      show (8 * t.1 + t.2) % 8 = t.2 by omega]
  least {b t rest} h := by
    obtain ⟨⟨v, rest'⟩, hv, h⟩ := Option.bind_eq_some_iff.mp h
    dsimp only at h
    split at h <;> cases h
    simpa only [plain, Nat.div_add_mod] using plain_varint.least hv

theorem plain_bytes : Shortest (·.length < 2 ^ 64) plain.appendBytes plain.consumeBytes where
  nonempty data h := varintFuel_ne_nil 9 _ (append_eq_nil_iff.mp h).1
  back data rest hdata := by
    have hv := plain_varint.back data.length (data ++ rest) hdata
    change (plain.consumeVarint (plain.appendVarint data.length ++ data ++ rest)).bind _ = _
    rw [append_assoc, hv]
    simp
  least {b data rest} h := by
    obtain ⟨⟨m, rest'⟩, hv, h⟩ := Option.bind_eq_some_iff.mp h
    dsimp only at h
    split at h <;> cases h
    rename_i hle
    obtain ⟨taken, rfl, hleast, hshort⟩ := plain_varint.least hv
    have hdata := length_take_of_le (Nat.le_of_not_lt hle)
    refine ⟨taken ++ rest'.take m, by simp, ?_⟩
    simp only [plain, length_append, hdata] at hleast hshort ⊢
    exact ⟨by omega, fun heq => by rw [hshort (by omega)]⟩

theorem plain_lawful : plain.Lawful where
  varint := plain_varint
  tag := plain_tag
  bytes := plain_bytes
  fieldValue {number typ b rest} h := by
    change (if typ = 0 then (plain.consumeVarint b).map (·.2)
      else if typ = 2 then (plain.consumeBytes b).map (·.2) else none) = _ at h
    split at h
    · obtain ⟨⟨v, rest⟩, hv, rfl⟩ := Option.map_eq_some_iff.mp h
      obtain ⟨taken, rfl, -⟩ := plain_varint.least hv
      simp
    split at h
    · obtain ⟨⟨data, rest⟩, hdata, rfl⟩ := Option.map_eq_some_iff.mp h
      obtain ⟨taken, rfl, -⟩ := plain_bytes.least hdata
      simp
    · cases h
  varint_eq v hv := varintFuel_of_lt hv
  tag_eq _ _ _ := rfl
  bytes_eq _ := rfl

end Protowire

namespace Secp256k1

theorem reversed_accepted_oneKey :
    oneKey.UnmarshalPubKey (18 :: 33 :: (oneKey.serializeCompressed () ++ [8, 2])) = .ok () ∧
      18 :: 33 :: (oneKey.serializeCompressed () ++ [8, 2]) ≠ oneKey.Marshal () :=
  reversed_accepted Protowire.plain_lawful oneKey_readsKeys ()

theorem unmarshalPubKey_inverts_oneKey : oneKey.Lawful ∧ oneKey.ReadsKeys ∧ oneKey.Canonical ∧
    oneKey.UnmarshalPubKey (oneKey.Marshal ()) = .ok () ∧ (oneKey.Marshal ()).length = 37 := by
  have hcanon : oneKey.Canonical := by
    intro b key _ hb
    simp only [oneKey] at hb ⊢
    split at hb
    · rename_i hb'
      exact hb'.symm
    · cases hb
  obtain ⟨hback, hiff⟩ := unmarshalPubKey_inverts oneKey.toSecp256k1 Protowire.plain_lawful oneKey_readsKeys hcanon
  exact ⟨Protowire.plain_lawful, oneKey_readsKeys, hcanon, hback (), ((hiff _ _ (hback ())).mp rfl).1⟩

end Secp256k1

end EthP2P.Identity
