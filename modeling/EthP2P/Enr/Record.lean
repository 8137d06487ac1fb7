/-
# EthP2P.Enr.Record — signed node records (`enr/enr.go`, `enr/entry.go`)

A record is the RLP list of a signature, a sequence number and key/value pairs in ascending key order;
`Decode` parses and verifies one, `Sign` builds one and decodes it.

* `decode_unique`: the bytes of an accepted record are determined by its signature, its sequence number
  and its entries, and the signature covers exactly the encoding of the last two.
* `sign_succeeds_iff`: `Sign` refuses a key that occurs twice or is one of its own, and a record above the
  size limit, and nothing else; what it returns is what it was given, in whatever order.

Keys are byte strings, as Go strings are; `cmp.Compare` and `bytes.Compare` are the lexicographic order.
`SortFunc` leaves the order of equal keys open, and `Decode` refuses equal keys in any order; the model
sorts by insertion.
-/
import Mathlib.Data.List.Sort
import EthP2P.Enr.Rlp
import EthP2P.Identity.Keys
import EthP2P.Lib.Maps

namespace EthP2P.Enr

open Lib Wire Identity Rlp List

def maxRecordSize : Nat := 300

/-- Why an entry type refused a value. -/
inductive ValueError where
  | rlp (err : RlpError)
  | key (err : KeyError)
  /-- An error of an application's entry type. -/
  | custom (text : String)
  deriving DecidableEq, Repr

inductive EnrError where
  | exceedsLimit
  | invalidRLP (err : RlpError)
  | trailingBytes
  | notList
  | wrongFields
  | signatureSize
  | invalidSequence (err : RlpError)
  | keyNotString
  | keysNotAscending
  | missing (key : Bytes)
  | value (key : Bytes) (err : ValueError)
  | notV4 (id : Bytes)
  | invalidSignature
  | nilKey
  deriving DecidableEq, Repr

/-! ## Entries -/

/-- An `Entry`: its key, and its value or why that cannot be encoded. -/
structure Entry where
  key : Bytes
  marshalValue : Except ValueError Bytes

/-- An entry type that can be read: its key, and how it reads a value. -/
structure EntryType (E : Type) where
  key : Bytes
  unmarshalValue : Bytes → Except ValueError E

/-- `"id"`. -/
def idKey : Bytes := [0x69, 0x64]

/-- `"secp256k1"`. -/
def secp256k1Key : Bytes := [0x73, 0x65, 0x63, 0x70, 0x32, 0x35, 0x36, 0x6b, 0x31]

/-- `"v4"`. -/
def v4 : Bytes := [0x76, 0x34]

def EntryID : EntryType Bytes where
  key := idKey
  unmarshalValue raw :=
    match decodeBytes raw with
    | .error err => .error (.rlp err)
    | .ok id => .ok id

def idEntry (id : Bytes) : Entry := ⟨idKey, .ok (encodeBytes id)⟩

variable {Priv Pub : Type}

/-- The curve library and the hash that records use. -/
structure Env (Priv Pub : Type) extends Secp256k1 Priv Pub where
  keccak256 : Bytes → Bytes

variable (env : Env Priv Pub)

def EntrySecp256k1 : EntryType Pub where
  key := secp256k1Key
  unmarshalValue raw :=
    match decodeBytes raw with
    | .error err => .error (.rlp err)
    | .ok compressed =>
      match env.ParsePubKey compressed with
      | .error err => .error (.key err)
      | .ok key => .ok key

def secp256k1Entry (key : Pub) : Entry := ⟨secp256k1Key, .ok (encodeBytes (env.serializeCompressed key))⟩

/-! ## Records -/

/-- `Record.entries`: each entry's value as raw RLP. -/
abbrev Entries := Map Bytes Bytes

structure Record (Pub : Type) where
  raw : Bytes
  seq : UInt64
  pub : Pub
  entries : Entries

/-- `Get`, of the entries alone: `Decode` calls it before the record is complete. -/
def Entries.Get {E : Type} (entries : Entries) (e : EntryType E) : Except EnrError E :=
  match entries.get e.key with
  | none => .error (.missing e.key)
  | some raw =>
    match e.unmarshalValue raw with
    | .error err => .error (.value e.key err)
    | .ok value => .ok value

namespace Record

def Encode (r : Record Pub) : Bytes := r.raw

def Seq (r : Record Pub) : UInt64 := r.seq

def PeerID (r : Record Pub) : Bytes := env.toSecp256k1.PeerID r.pub

def Get {E : Type} (r : Record Pub) (e : EntryType E) : Except EnrError E := r.entries.Get e

end Record

/-- The loop over the fields behind the sequence number; `previous` is the key before. -/
def decodeEntries : List RlpItem → Option Bytes → Entries → Except EnrError Entries
  | key :: value :: fields, previous, entries =>
    if key.kind ≠ .string then .error .keyNotString
    else if previous.any (fun p => !decide (p < key.payload)) then .error .keysNotAscending
    else decodeEntries fields (some key.payload) (entries.set key.payload value.raw)
  | _, _, entries => .ok entries

/-- `Decode`, from the fields of the list on. -/
def decodeFields (raw : Bytes) (signature seqItem : RlpItem) (fields : List RlpItem) : Except EnrError (Record Pub) :=
  if signature.kind ≠ .string ∨ signature.payload.length ≠ 64 then .error .signatureSize
  else
    match decodeUint 8 seqItem with
    | .error err => .error (.invalidSequence err)
    | .ok seq =>
      match decodeEntries fields none ∅ with
      | .error err => .error err
      | .ok entries =>
        match entries.Get EntryID with
        | .error err => .error err
        | .ok id =>
          if id ≠ v4 then .error (.notV4 id)
          else
            match entries.Get (EntrySecp256k1 env) with
            | .error err => .error err
            | .ok publicKey =>
              let content := (seqItem :: fields).flatMap (·.raw)
              let hash := env.keccak256 (encodeRLPList content)
              if env.VerifyHash publicKey hash signature.payload = false then .error .invalidSignature
              else .ok { raw := raw, seq := UInt64.ofNat seq, pub := publicKey, entries := entries }

def Decode (raw : Bytes) : Except EnrError (Record Pub) :=
  if raw.length > maxRecordSize then .error .exceedsLimit
  else
    match decodeRLP raw with
    | .error err => .error (.invalidRLP err)
    | .ok (root, rest) =>
      if rest.length ≠ 0 then .error .trailingBytes
      else if root.kind ≠ .list then .error .notList
      else if root.children.length < 2 ∨ (root.children.length - 2) % 2 ≠ 0 then .error .wrongFields
      else
        match root.children with
        | signature :: seqItem :: fields => decodeFields env raw signature seqItem fields
        | _ => .error .wrongFields

/-- `entry`: a key and its value as raw RLP. -/
abbrev RawEntry := Bytes × Bytes

def encodeSignedContent (seq : UInt64) (entries : List RawEntry) : Bytes :=
  encodeUint seq.toNat ++ entries.flatMap fun e => encodeBytes e.1 ++ e.2

/-- `cmp.Compare` of the keys, as an order. -/
def keyLE (a b : RawEntry) : Prop := a.1 ≤ b.1

instance : DecidableRel keyLE := fun a b => inferInstanceAs (Decidable (a.1 ≤ b.1))

def signEntries (key : Priv) (seq : UInt64) (entries : List RawEntry) : Bytes :=
  let entries := entries.insertionSort keyLE
  let content := encodeSignedContent seq entries
  let signature := env.SignHash key (env.keccak256 (encodeRLPList content))
  encodeRLPList (encodeBytes signature ++ content)

/-- The values of the entries, up to the first that cannot be encoded. -/
def marshalEntries : List Entry → Except EnrError (List RawEntry)
  | [] => .ok []
  | e :: entries =>
    match e.marshalValue with
    | .error err => .error (.value e.key err)
    | .ok value =>
      match marshalEntries entries with
      | .error err => .error err
      | .ok signed => .ok ((e.key, value) :: signed)

/-- The entries of a record, those derived from the key first. -/
def signedEntries (key : Priv) (entries : List Entry) : List Entry :=
  idEntry v4 :: secp256k1Entry env (env.pubKey key) :: entries

def Sign (key : Option Priv) (seq : UInt64) (entries : List Entry) : Except EnrError (Record Pub) :=
  match key with
  | none => .error .nilKey
  | some key =>
    match marshalEntries (signedEntries env key entries) with
    | .error err => .error err
    | .ok signed => Decode env (signEntries env key seq signed)

/-! ## What `Decode` checks -/

/-- The fields of an accepted record: what `Decode` has checked, in its order. -/
structure Decodes (raw : Bytes) (r : Record Pub) (root signature seqItem : RlpItem) (fields : List RlpItem) :
    Prop where
  size : raw.length ≤ maxRecordSize
  parsed : decodeRLP raw = .ok (root, [])
  list : root.kind = .list
  children : root.children = signature :: seqItem :: fields
  paired : fields.length % 2 = 0
  signed : signature.kind = .string ∧ signature.payload.length = 64
  seq : decodeUint 8 seqItem = .ok r.seq.toNat
  entries : decodeEntries fields none ∅ = .ok r.entries
  id : r.entries.Get EntryID = .ok v4
  pub : r.entries.Get (EntrySecp256k1 env) = .ok r.pub
  verified : env.VerifyHash r.pub (env.keccak256 (encodeRLPList ((seqItem :: fields).flatMap (·.raw))))
    signature.payload = true
  kept : r.raw = raw

theorem toNat_decodeUint {item : RlpItem} {value : Nat} (h : decodeUint 8 item = .ok value) :
    (UInt64.ofNat value).toNat = value := by
  unfold decodeUint at h
  split at h
  · cases h
  split at h
  · cases h
  rename_i hlen
  split at h
  · cases h
  cases h
  have hlt := beValue_lt item.payload
  have hpow : 256 ^ item.payload.length ≤ 256 ^ 8 :=
    Nat.pow_le_pow_right (by decide) (Nat.le_of_not_lt hlen)
  rw [UInt64.toNat_ofNat']
  exact Nat.mod_eq_of_lt (lt_of_lt_of_le hlt hpow)

variable {fields : List RlpItem} {r : Record Pub} {raw b : Bytes} {es : List RawEntry}

theorem decodeFields_ok {root signature seqItem : RlpItem}
    (hsize : raw.length ≤ maxRecordSize) (hparsed : decodeRLP raw = .ok (root, []))
    (hlist : root.kind = .list) (hchildren : root.children = signature :: seqItem :: fields)
    (hpaired : fields.length % 2 = 0) (h : decodeFields env raw signature seqItem fields = .ok r) :
    Decodes env raw r root signature seqItem fields := by
  unfold decodeFields at h
  split at h
  · cases h
  rename_i hsig
  push Not at hsig
  split at h
  · cases h
  rename_i seq hseq
  split at h
  · cases h
  rename_i entries hentries
  split at h
  · cases h
  rename_i id hid
  split at h
  · cases h
  rename_i hv4
  rw [not_not] at hv4
  split at h
  · cases h
  rename_i publicKey hpub
  dsimp only at h
  split at h
  · cases h
  rename_i hverified
  cases h
  rw [Bool.not_eq_false] at hverified
  refine ⟨hsize, hparsed, hlist, hchildren, hpaired, hsig, ?_, hentries, hv4 ▸ hid, hpub, hverified, rfl⟩
  rw [toNat_decodeUint hseq, hseq]

/-- **`Decode`, inverted.** -/
theorem decode_iff : Decode env raw = .ok r ↔
    ∃ root signature seqItem fields, Decodes env raw r root signature seqItem fields := by
  constructor
  · intro h
    unfold Decode at h
    split at h
    · cases h
    rename_i hsize
    split at h
    · cases h
    rename_i root rest hparsed
    split at h
    · cases h
    rename_i hrest
    obtain rfl := eq_nil_of_length_eq_zero (not_not.mp hrest)
    split at h
    · cases h
    rename_i hlist
    split at h
    · cases h
    rename_i hcount
    push Not at hcount
    split at h
    · rename_i signature seqItem fields hchildren
      rw [hchildren] at hcount
      have hpaired : fields.length % 2 = 0 := by
        have heven := hcount.2
        simp only [length_cons] at heven
        omega
      exact ⟨root, signature, seqItem, fields,
        decodeFields_ok env (Nat.le_of_not_lt hsize) hparsed (not_not.mp hlist) hchildren hpaired h⟩
    · cases h
  · rintro ⟨root, signature, seqItem, fields, h⟩
    have hcount : ¬ (root.children.length < 2 ∨ (root.children.length - 2) % 2 ≠ 0) := by
      have hpaired := h.paired
      rw [h.children]
      simp only [length_cons]
      omega
    have hsig : ¬ (signature.kind ≠ .string ∨ signature.payload.length ≠ 64) := by
      rw [h.signed.1, h.signed.2]
      simp
    have hseq : UInt64.ofNat r.seq.toNat = r.seq := UInt64.ofNat_toNat
    simp only [Decode, if_neg (Nat.not_lt.mpr h.size), h.parsed, length_nil, h.list, ne_eq, not_true_eq_false, if_false]
    rw [if_neg hcount]
    simp only [h.children, decodeFields, if_neg hsig, h.seq, h.entries, h.id, h.pub, hseq, ne_eq,
      not_true_eq_false, if_false]
    rw [h.verified, if_neg (by simp), ← h.kept]

/-! ## The entries of a record -/

/-- The entries that the loop has stored, from `entries` on. -/
def store (entries : Entries) (es : List RawEntry) : Entries := es.foldl (fun m e => m.set e.1 e.2) entries

/-- Keys in strictly ascending order. -/
def Ascending (es : List RawEntry) : Prop := es.Pairwise fun a b => a.1 < b.1

theorem get_store (h : Ascending es) (entries : Entries) (k v : Bytes) :
    (store entries es).get k = some v ↔ (k, v) ∈ es ∨ (∀ e ∈ es, e.1 ≠ k) ∧ entries.get k = some v := by
  induction es generalizing entries with
  | nil => simp [store]
  | cons e es ih =>
    obtain ⟨hhead, htail⟩ := pairwise_cons.mp h
    have hne : ∀ e' ∈ es, e'.1 ≠ e.1 := by
      intro e' he' heq
      exact List.lt_irrefl _ (heq ▸ hhead e' he')
    rw [store, foldl_cons, ← store, ih htail, Map.get_set]
    constructor
    · rintro (hmem | ⟨hall, hget⟩)
      · exact .inl (mem_cons_of_mem _ hmem)
      split at hget
      · rename_i hk
        cases hget
        exact .inl (mem_cons.mpr (.inl (by rw [hk])))
      rename_i hk
      refine .inr ⟨?_, hget⟩
      intro e' he'
      rcases mem_cons.mp he' with rfl | he'
      · exact fun heq => hk heq.symm
      · exact hall e' he'
    · rintro (hmem | ⟨hall, hget⟩)
      · rcases mem_cons.mp hmem with rfl | hmem
        · exact .inr ⟨hne, by simp⟩
        · exact .inl hmem
      refine .inr ⟨fun e' he' => hall e' (mem_cons_of_mem _ he'), ?_⟩
      rw [if_neg (fun hk => hall e (mem_cons_self ..) hk.symm)]
      exact hget

theorem get_store_empty (h : Ascending es) (k v : Bytes) : (store ∅ es).get k = some v ↔ (k, v) ∈ es := by
  rw [get_store h]
  simp

/-- **What the loop accepts**: pairs of a key and a value, the keys ascending from the one before. -/
theorem decodeEntries_ok {previous : Option Bytes} {entries entries' : Entries}
    (hcanonical : ∀ item ∈ fields, item.Canonical) (hpaired : fields.length % 2 = 0)
    (h : decodeEntries fields previous entries = .ok entries') :
    ∃ es : List RawEntry, fields.flatMap (·.raw) = es.flatMap (fun e => encodeBytes e.1 ++ e.2) ∧
      Ascending es ∧ (∀ p ∈ previous, ∀ e ∈ es, p < e.1) ∧ entries' = store entries es := by
  induction fields, previous, entries using decodeEntries.induct with
  | case1 key value fields previous entries hkind =>
    rw [decodeEntries, if_pos hkind] at h
    cases h
  | case2 key value fields previous entries hkind horder =>
    rw [decodeEntries, if_neg hkind, if_pos horder] at h
    cases h
  | case3 key value fields previous entries hkind horder ih =>
    rw [decodeEntries, if_neg hkind, if_neg horder] at h
    have hrest : ∀ item ∈ fields, item.Canonical := fun item hmem =>
      hcanonical item (mem_cons_of_mem _ (mem_cons_of_mem _ hmem))
    have heven : fields.length % 2 = 0 := by
      simp only [length_cons] at hpaired
      omega
    obtain ⟨es, hbytes, hasc, hfrom, rfl⟩ := ih hrest heven h
    have hkey := (hcanonical key (mem_cons_self ..)).raw_string (not_not.mp hkind)
    refine ⟨(key.payload, value.raw) :: es, ?_, ?_, ?_, rfl⟩
    · rw [flatMap_cons, flatMap_cons, flatMap_cons, hbytes, hkey, append_assoc]
    · exact pairwise_cons.mpr ⟨fun e he => hfrom _ rfl e he, hasc⟩
    intro p hp e he
    have hlt : p < key.payload := by
      obtain rfl := Option.mem_def.mp hp
      simpa using horder
    rcases mem_cons.mp he with rfl | he
    · exact hlt
    · exact List.lt_trans hlt (hfrom _ rfl e he)
  | case4 fields previous entries hshort =>
    obtain rfl : fields = [] := by
      cases fields with
      | nil => rfl
      | cons key rest =>
        cases rest with
        | nil => simp at hpaired
        | cons value rest => exact absurd rfl (hshort key value rest)
    cases h
    exact ⟨[], rfl, Pairwise.nil, by simp, rfl⟩

/-! ## Accepted records -/

/-- The signature that `Decode` finds in a record. -/
def signatureOf (raw : Bytes) : Bytes :=
  match decodeRLP raw with
  | .error _ => []
  | .ok (root, _) =>
    match root.children with
    | [] => []
    | signature :: _ => signature.payload

theorem Decodes.signatureOf_eq {root signature seqItem : RlpItem}
    (h : Decodes env raw r root signature seqItem fields) : signatureOf raw = signature.payload := by
  simp only [signatureOf, h.parsed, h.children]

/-- **The bytes of an accepted record**: the encoding of its signature, its sequence number and its entries
in ascending order, the signature covering the last two. -/
theorem decode_bytes (h : Decode env raw = .ok r) :
    ∃ entries : List RawEntry, Ascending entries ∧ r.entries = store ∅ entries ∧
      raw = encodeRLPList (encodeBytes (signatureOf raw) ++ encodeSignedContent r.seq entries) ∧
      env.VerifyHash r.pub (env.keccak256 (encodeRLPList (encodeSignedContent r.seq entries)))
        (signatureOf raw) = true := by
  obtain ⟨root, signature, seqItem, fields, hdec⟩ := (decode_iff env).mp h
  obtain ⟨hroot, hraw⟩ := decodeRLP_canonical hdec.parsed
  obtain ⟨hencoded, hchildren⟩ := hroot.raw_list hdec.list
  rw [hdec.children] at hencoded hchildren
  have hsig := hchildren signature (by simp)
  have hseq := hchildren seqItem (by simp)
  have hfields : ∀ item ∈ fields, item.Canonical := fun item hmem => hchildren item (by simp [hmem])
  obtain ⟨es, hbytes, hasc, _, hstore⟩ := decodeEntries_ok hfields hdec.paired hdec.entries
  have hcontent : (seqItem :: fields).flatMap (·.raw) = encodeSignedContent r.seq es := by
    rw [flatMap_cons, hbytes, (hseq.raw_uint hdec.seq).1, encodeSignedContent]
  refine ⟨es, hasc, hstore, ?_, ?_⟩
  · rw [append_nil] at hraw
    rw [hdec.signatureOf_eq, ← hcontent, ← hsig.raw_string hdec.signed.1, ← flatMap_cons, ← hencoded]
    exact hraw
  · rw [hdec.signatureOf_eq, ← hcontent]
    exact hdec.verified

/-- Ascending lists with the same members are equal. -/
theorem Ascending.ext {es' : List RawEntry} (h : Ascending es) (h' : Ascending es')
    (hmem : ∀ e, e ∈ es ↔ e ∈ es') : es = es' := by
  have hnodup : ∀ {l : List RawEntry}, Ascending l → l.Nodup := by
    intro l hl
    refine Pairwise.imp ?_ hl
    rintro a b hlt rfl
    exact List.lt_irrefl _ hlt
  refine ((perm_ext_iff_of_nodup (hnodup h) (hnodup h')).mpr hmem).eq_of_pairwise ?_ h h'
  intro a b _ _ hab hba
  exact absurd (List.lt_trans hab hba) (List.lt_irrefl _)

/-- **Every accepted byte string is canonical.**  The keys of its entries ascend strictly; its bytes are the
encoding of the decoded signature, sequence number and entries in that order; the signature was verified
over the encoding of the content list of the last two; and another accepted byte string differs in the
signature, the sequence number or an entry. -/
theorem decode_unique (raw : Bytes) (r : Record Pub) (h : Decode env raw = .ok r) :
    (∃ entries : List RawEntry, entries.Pairwise (fun a b => a.1 < b.1) ∧ (entries.map (·.1)).Nodup ∧
      (∀ k v, r.entries.get k = some v ↔ (k, v) ∈ entries) ∧
      encodeRLPList (encodeBytes (signatureOf raw) ++ encodeSignedContent r.seq entries) = raw ∧
      env.VerifyHash r.pub (env.keccak256 (encodeRLPList (encodeSignedContent r.seq entries)))
        (signatureOf raw) = true) ∧
    ∀ (raw' : Bytes) (r' : Record Pub), Decode env raw' = .ok r' → raw' ≠ raw →
      signatureOf raw' ≠ signatureOf raw ∨ r'.seq ≠ r.seq ∨ ∃ k, r'.entries.get k ≠ r.entries.get k := by
  obtain ⟨es, hasc, hstore, hraw, hverified⟩ := decode_bytes env h
  refine ⟨⟨es, hasc, ?_, fun k v => ?_, hraw.symm, hverified⟩, ?_⟩
  · exact List.Pairwise.map _ (fun a b hlt heq => List.lt_irrefl _ (heq ▸ hlt)) hasc
  · rw [hstore]
    exact get_store_empty hasc k v
  intro raw' r' h' hne
  obtain ⟨es', hasc', hstore', hraw', _⟩ := decode_bytes env h'
  by_contra hsame
  push Not at hsame
  obtain ⟨hsig, hseq, hentries⟩ := hsame
  have hes : es' = es := by
    refine hasc'.ext hasc fun e => ?_
    rw [← Prod.mk.eta (p := e), ← get_store_empty hasc, ← get_store_empty hasc', ← hstore, ← hstore', hentries]
  apply hne
  rw [hraw', hraw, hsig, hseq, hes]

/-- `eip778Example` of the package's tests. -/
def eip778Example : Bytes := beBytes 134 0xf884b8407098ad865b00a582051940cb9cf36836572411a47278783077011599ed5cd16b76f2635f4e234738f30813a89eb9137e3e3df5266e3a1f11df72ecf1145ccb9c01826964827634826970847f00000189736563703235366b31a103ca634cae0d49acb401d8a4c6b6fe8c55b70d115bf400769cc1400f3258cd31388375647082765f

def exampleKey : Bytes := slice eip778Example 94 127
/-- The Keccak of what its signature covers. -/
def exampleHash : Bytes := beBytes 32 0xbc218268b018aecb5d4c5afd5feeb3b920f56eddf09bdf83df9d3de868e1cb95

/-- The key of the example: its signature of that hash, and the hash of what it covers. -/
def oneKey : Env Unit Unit where
  toProtowire := .plain
  pubKey _ := ()
  serializeCompressed _ := exampleKey
  parsePubKey b := if b = exampleKey then some () else none
  signCompact _ hash := 0 :: if hash = exampleHash then slice eip778Example 4 68 else replicate 64 0
  badScalar _ := false
  overHalfOrder _ := false
  verify hash r s _ := r ++ s == if hash = exampleHash then slice eip778Example 4 68 else replicate 64 0
  keccak256 message := if message = encodeRLPList (eip778Example.drop 68) then exampleHash else replicate 32 0

/-- Its entries are the port, the key, the address and the version. -/
theorem decode_unique_example : ∃ r, Decode oneKey eip778Example = .ok r ∧ r.seq = 1 ∧
    r.entries.keys = [[0x75, 0x64, 0x70], secp256k1Key, [0x69, 0x70], idKey] ∧
    ∃ entries : List RawEntry, entries.Pairwise (fun a b => a.1 < b.1) ∧
      encodeRLPList (encodeBytes (signatureOf eip778Example) ++ encodeSignedContent 1 entries) = eip778Example := by
  have hok : (Decode oneKey eip778Example).toOption.map (fun r => (r.seq, r.entries.keys)) =
      some (1, [[0x75, 0x64, 0x70], secp256k1Key, [0x69, 0x70], idKey]) := by
    decide +kernel
  cases hr : Decode oneKey eip778Example with
  | error err =>
    rw [hr] at hok
    cases hok
  | ok r =>
  rw [hr] at hok
  obtain ⟨hseq, hkeys⟩ := Prod.mk.inj (Option.some.inj hok)
  obtain ⟨⟨entries, hasc, _, _, hraw, _⟩, _⟩ := decode_unique oneKey eip778Example r hr
  rw [hseq] at hraw
  exact ⟨r, rfl, hseq, hkeys, entries, hasc, hraw⟩

/-! ## Signed records -/

theorem decodeBytes_encodeBytes (h : (encodeBytes b).length < 256 ^ 8) : decodeBytes (encodeBytes b) = .ok b := by
  have hparsed : decodeRLP (encodeBytes b ++ []) = .ok (item (.bytes b), []) :=
    decodeRLP_encode (.bytes b) [] h
  rw [append_nil] at hparsed
  simp [decodeBytes, decodeSingleRLP, hparsed, item]

/-- The fields of entries whose values are trees. -/
def treeFields : List (Bytes × Rlp) → List Rlp
  | [] => []
  | e :: es => .bytes e.1 :: e.2 :: treeFields es

/-- The entries as `Sign` writes them. -/
def rawEntries (es : List (Bytes × Rlp)) : List RawEntry := es.map fun e => (e.1, e.2.encode)

theorem encodeAll_treeFields (es : List (Bytes × Rlp)) :
    encodeAll (treeFields es) = (rawEntries es).flatMap fun e => encodeBytes e.1 ++ e.2 := by
  induction es with
  | nil => rfl
  | cons e es ih =>
    have hcons : rawEntries (e :: es) = (e.1, e.2.encode) :: rawEntries es := rfl
    rw [treeFields, encodeAll, encodeAll, ih, hcons, flatMap_cons, append_assoc]
    rfl

theorem raw_itemAll (ts : List Rlp) : (itemAll ts).flatMap (·.raw) = encodeAll ts := by
  induction ts with
  | nil => rfl
  | cons t ts ih => rw [itemAll, flatMap_cons, ih, raw_item, encodeAll]

theorem length_treeFields (es : List (Bytes × Rlp)) : (itemAll (treeFields es)).length = 2 * es.length := by
  induction es with
  | nil => rfl
  | cons e es ih =>
    simp only [treeFields, itemAll, length_cons, ih]
    omega

/-- **The loop over what `Sign` wrote** passes exactly when the keys ascend. -/
theorem decodeEntries_treeFields (es : List (Bytes × Rlp)) (previous : Option Bytes) (entries entries' : Entries) :
    decodeEntries (itemAll (treeFields es)) previous entries = .ok entries' ↔
      Ascending (rawEntries es) ∧ (∀ p ∈ previous, ∀ e ∈ es.head?, p < e.1) ∧
        entries' = store entries (rawEntries es) := by
  induction es generalizing previous entries with
  | nil =>
    simp only [treeFields, itemAll, decodeEntries, rawEntries, store]
    simp [Ascending, eq_comm]
  | cons e es ih =>
    have hnext : Ascending (rawEntries (e :: es)) ↔
        Ascending (rawEntries es) ∧ ∀ p ∈ some e.1, ∀ e' ∈ es.head?, p < e'.1 := by
      rw [rawEntries, map_cons, Ascending, pairwise_cons, ← rawEntries, ← Ascending, and_comm]
      refine and_congr_right fun hasc => ⟨?_, ?_⟩
      · rintro hall p hp e' he'
        obtain rfl := Option.mem_some_iff.mp hp
        exact hall _ (mem_map_of_mem (mem_of_mem_head? he'))
      intro hhead e' he'
      cases es with
      | nil => cases he'
      | cons e₁ es =>
        have hfirst : e.1 < e₁.1 := hhead _ rfl _ rfl
        rcases mem_cons.mp he' with rfl | hmem
        · exact hfirst
        · exact List.lt_trans hfirst ((List.pairwise_cons.mp hasc).1 e' hmem)
    simp only [treeFields, itemAll, decodeEntries, item, ne_eq, not_true_eq_false, if_false]
    by_cases horder : previous.any (fun p => !decide (p < e.1)) = true
    · rw [if_pos horder]
      constructor
      · intro h
        cases h
      rintro ⟨_, hprevious, _⟩
      cases previous with
      | none => cases horder
      | some p => simp [hprevious p rfl e rfl] at horder
    rw [if_neg horder, ih, hnext]
    have hprevious : ∀ p ∈ previous, ∀ e' ∈ (e :: es).head?, p < e'.1 := by
      intro p hp e' he'
      obtain rfl := Option.mem_def.mp hp
      obtain rfl := Option.mem_some_iff.mp he'
      simpa using horder
    have hstore : store entries (rawEntries (e :: es)) = store (entries.set e.1 e.2.encode) (rawEntries es) := rfl
    rw [hstore, raw_item]
    tauto

/-- The integer that a sequence number is encoded as. -/
theorem encodeUint_eq (seq : UInt64) : ∃ b : Bytes, encodeUint seq.toNat = encodeBytes b ∧ b.length ≤ 8 ∧
    ∀ raw, decodeUint 8 ⟨.string, b, raw, []⟩ = .ok seq.toNat := by
  by_cases hzero : seq.toNat = 0
  · refine ⟨[], by rw [encodeUint, if_pos hzero], by simp, fun raw => ?_⟩
    rw [hzero]
    rfl
  have hlen : (dropZeros (beBytes 8 seq.toNat)).length ≤ 8 := by
    have hle := length_dropZeros_le (beBytes 8 seq.toNat)
    rwa [length_beBytes] at hle
  have hlt : seq.toNat < 256 ^ 8 := seq.toNat_lt
  refine ⟨dropZeros (beBytes 8 seq.toNat), by rw [encodeUint, if_neg hzero], hlen, fun raw => ?_⟩
  unfold decodeUint
  rw [if_neg (by simp), if_neg (Nat.not_lt.mpr hlen), if_neg (head_dropZeros _), beValue_dropZeros hlt]

/-- `Sign`'s order of the entries. -/
def sorted (signed : List RawEntry) : List RawEntry := signed.insertionSort keyLE

theorem sorted_perm (signed : List RawEntry) : (sorted signed).Perm signed := perm_insertionSort _ _

instance : Std.Total keyLE := ⟨fun a b => List.le_total a.1 b.1⟩

instance : IsTrans RawEntry keyLE := ⟨fun _ _ _ h h' => List.le_trans h h'⟩

/-- Distinct keys are sorted strictly, and only those. -/
theorem ascending_sorted_iff (signed : List RawEntry) : Ascending (sorted signed) ↔ (signed.map (·.1)).Nodup := by
  have hperm := (sorted_perm signed).map (·.1)
  rw [← hperm.nodup_iff]
  constructor
  · intro hasc
    refine Pairwise.map _ ?_ hasc
    rintro a b hlt heq
    exact List.lt_irrefl _ (heq ▸ hlt)
  intro hnodup
  have hle := pairwise_insertionSort keyLE signed
  refine (hle.and (pairwise_map.mp hnodup)).imp ?_
  rintro a b ⟨hkey, hne⟩
  by_contra hlt
  exact hne (List.le_antisymm hkey (List.not_lt.mp hlt))

theorem exists_trees {l : List RawEntry} (h : ∀ e ∈ l, ∃ t : Rlp, e.2 = t.encode) : ∃ es, l = rawEntries es := by
  induction l with
  | nil => exact ⟨[], rfl⟩
  | cons e l ih =>
    obtain ⟨t, ht⟩ := h e (mem_cons_self ..)
    obtain ⟨es, hes⟩ := ih fun e' he' => h e' (mem_cons_of_mem _ he')
    exact ⟨(e.1, t) :: es, by rw [hes, rawEntries, rawEntries, map_cons, ← ht]⟩

theorem length_encodeBytes_short (h : b.length ≤ 55) : (encodeBytes b).length < 256 ^ 8 := by
  have hle : (encodeBytes b).length ≤ 56 := by
    unfold encodeBytes
    split
    · simp
    · rw [length_cons]
      omega
  exact lt_of_le_of_lt hle (by decide)

/-- An entry whose value is a short byte string is read back. -/
theorem get_short {E : Type} (hasc : Ascending es) (e : EntryType E) {value : E}
    (hmem : (e.key, encodeBytes b) ∈ es) (hread : e.unmarshalValue (encodeBytes b) = .ok value) :
    (store ∅ es).Get e = .ok value := by
  have hget := (get_store_empty hasc e.key _).mpr hmem
  simp only [Entries.Get, hget, hread]

/-- What `Sign` signs. -/
def signedContent (seq : UInt64) (signed : List RawEntry) : Bytes := encodeSignedContent seq (sorted signed)

def signatureFor (key : Priv) (seq : UInt64) (signed : List RawEntry) : Bytes :=
  env.SignHash key (env.keccak256 (encodeRLPList (signedContent seq signed)))

/-- The tree of a record. -/
def recordTree (signature seqBytes : Bytes) (es : List (Bytes × Rlp)) : Rlp :=
  .list (.bytes signature :: .bytes seqBytes :: treeFields es)

theorem signEntries_eq_encode (key : Priv) {seq : UInt64} {signed : List RawEntry} {es : List (Bytes × Rlp)}
    {seqBytes : Bytes} (hes : sorted signed = rawEntries es) (hseq : encodeUint seq.toNat = encodeBytes seqBytes) :
    signEntries env key seq signed = (recordTree (signatureFor env key seq signed) seqBytes es).encode := by
  have hcontent : signedContent seq signed = encodeBytes seqBytes ++ encodeAll (treeFields es) := by
    rw [signedContent, encodeSignedContent, hseq, hes, encodeAll_treeFields]
  show encodeRLPList (encodeBytes (signatureFor env key seq signed) ++ signedContent seq signed) = _
  rw [hcontent]
  rfl

theorem content_itemAll {seq : UInt64} {signed : List RawEntry} {es : List (Bytes × Rlp)} {seqBytes : Bytes}
    (hes : sorted signed = rawEntries es) (hseq : encodeUint seq.toNat = encodeBytes seqBytes) :
    (item (.bytes seqBytes) :: itemAll (treeFields es)).flatMap (·.raw) = signedContent seq signed := by
  rw [flatMap_cons, raw_itemAll, encodeAll_treeFields, ← hes, signedContent, encodeSignedContent, hseq]
  rfl

/-- **Decoding what `Sign` wrote**: with values that are encodings of trees, nothing but the order of the
keys and the size is left to refuse. -/
theorem decode_signEntries (hverify : env.Verifies) (hkeys : env.ReadsKeys) (key : Priv) (seq : UInt64)
    (signed : List RawEntry) (hitems : ∀ e ∈ signed, ∃ t : Rlp, e.2 = t.encode)
    (hid : (idKey, encodeBytes v4) ∈ signed)
    (hpub : (secp256k1Key, encodeBytes (env.serializeCompressed (env.pubKey key))) ∈ signed) (r : Record Pub) :
    Decode env (signEntries env key seq signed) = .ok r ↔
      (signed.map (·.1)).Nodup ∧ (signEntries env key seq signed).length ≤ maxRecordSize ∧
        r = ⟨signEntries env key seq signed, seq, env.pubKey key, store ∅ (sorted signed)⟩ := by
  obtain ⟨es, hes⟩ := exists_trees fun e he => hitems e ((sorted_perm signed).mem_iff.mp he)
  obtain ⟨seqBytes, hencoded, _, hseq⟩ := encodeUint_eq seq
  have hraw := signEntries_eq_encode env key hes hencoded
  have hparsed : (signEntries env key seq signed).length ≤ maxRecordSize →
      decodeRLP (signEntries env key seq signed) =
        .ok ((recordTree (signatureFor env key seq signed) seqBytes es).item, []) := by
    intro hsize
    rw [hraw] at hsize ⊢
    have hdecode := decodeRLP_encode _ [] (lt_of_le_of_lt hsize (by decide))
    rwa [append_nil] at hdecode
  have hgetID : Ascending (sorted signed) → (store ∅ (sorted signed)).Get EntryID = .ok v4 := by
    intro hasc
    refine get_short hasc EntryID (b := v4) ((sorted_perm signed).mem_iff.mpr hid) ?_
    simp only [EntryID, decodeBytes_encodeBytes (length_encodeBytes_short (b := v4) (by decide))]
  have hgetPub : Ascending (sorted signed) →
      (store ∅ (sorted signed)).Get (EntrySecp256k1 env) = .ok (env.pubKey key) := by
    intro hasc
    refine get_short hasc (EntrySecp256k1 env) ((sorted_perm signed).mem_iff.mpr hpub) ?_
    have hlen : (env.serializeCompressed (env.pubKey key)).length ≤ 55 := by
      rw [(hkeys (env.pubKey key)).1]
      decide
    simp only [EntrySecp256k1, decodeBytes_encodeBytes (length_encodeBytes_short hlen), env.parsePubKey_serialize hkeys]
  rw [decode_iff, ← ascending_sorted_iff]
  constructor
  · rintro ⟨root, sigItem, seqItem, fields, hdec⟩
    have hroot := (Prod.mk.inj (Except.ok.inj (hdec.parsed.symm.trans (hparsed hdec.size)))).1
    have hchildren := hdec.children
    rw [hroot] at hchildren
    simp only [recordTree, item, itemAll, cons.injEq] at hchildren
    obtain ⟨rfl, rfl, rfl⟩ := hchildren
    obtain ⟨hasc, _, hentries⟩ := (decodeEntries_treeFields es none ∅ r.entries).mp hdec.entries
    rw [← hes] at hasc hentries
    refine ⟨hasc, hdec.size, ?_⟩
    have hpub' : r.pub = env.pubKey key := by
      have heq := hdec.pub
      rw [hentries, hgetPub hasc] at heq
      exact (Except.ok.inj heq).symm
    have hseq' : r.seq = seq := UInt64.toNat_inj.mp (Except.ok.inj (hdec.seq.symm.trans (hseq _)))
    have hkept := hdec.kept
    cases r
    dsimp only at hpub' hseq' hkept hentries
    rw [hpub', hseq', hkept, hentries]
  · rintro ⟨hasc, hsize, rfl⟩
    have hverified := hverify key (env.keccak256 (encodeRLPList (signedContent seq signed)))
    refine ⟨_, item (.bytes (signatureFor env key seq signed)), item (.bytes seqBytes),
      itemAll (treeFields es), hsize, hparsed hsize, rfl, rfl, ?_, ⟨rfl, ?_⟩, hseq _, ?_, hgetID hasc,
      hgetPub hasc, ?_, rfl⟩
    · rw [length_treeFields]
      omega
    · exact env.length_of_verifyHash hverified
    · rw [decodeEntries_treeFields, ← hes]
      exact ⟨hasc, by simp, rfl⟩
    · rw [content_itemAll hes hencoded]
      exact hverified

/-- The values that were marshalled, one for each entry. -/
theorem marshalEntries_ok {entries : List Entry} (h : ∀ e ∈ entries, ∃ t : Rlp, e.marshalValue = .ok t.encode) :
    ∃ signed, marshalEntries entries = .ok signed ∧ signed.map (·.1) = entries.map (·.key) ∧
      (∀ e ∈ signed, ∃ t : Rlp, e.2 = t.encode) ∧
      ∀ k v, (k, v) ∈ signed ↔ ∃ e ∈ entries, e.key = k ∧ e.marshalValue = .ok v := by
  induction entries with
  | nil => exact ⟨[], rfl, rfl, by simp, by simp⟩
  | cons e entries ih =>
    obtain ⟨signed, hsigned, hnames, hitems, hmem⟩ := ih fun e' he' => h e' (mem_cons_of_mem _ he')
    obtain ⟨t, ht⟩ := h e (mem_cons_self ..)
    refine ⟨(e.key, t.encode) :: signed, ?_, ?_, ?_, ?_⟩
    · simp only [marshalEntries, ht, hsigned]
    · rw [map_cons, map_cons, hnames]
    · intro e' he'
      rcases mem_cons.mp he' with rfl | he'
      · exact ⟨t, rfl⟩
      · exact hitems e' he'
    · intro k v
      rw [mem_cons, hmem, exists_mem_cons_iff]
      have hhead : (k, v) = (e.key, t.encode) ↔ e.key = k ∧ e.marshalValue = .ok v := by
        rw [ht, Prod.mk.injEq, Except.ok.injEq, eq_comm, eq_comm (a := v)]
      rw [hhead]

/-- `Sign`, with the values it marshalled. -/
theorem sign_ok_iff (hverify : env.Verifies) (hkeys : env.ReadsKeys) (key : Priv) (seq : UInt64)
    {entries : List Entry} (hitems : ∀ e ∈ entries, ∃ t : Rlp, e.marshalValue = .ok t.encode) :
    ∃ signed, marshalEntries (signedEntries env key entries) = .ok signed ∧
      signed.map (·.1) = idKey :: secp256k1Key :: entries.map (·.key) ∧
      (∀ k v, (k, v) ∈ signed ↔ ∃ e ∈ signedEntries env key entries, e.key = k ∧ e.marshalValue = .ok v) ∧
      ∀ r, Sign env (some key) seq entries = .ok r ↔
        (signed.map (·.1)).Nodup ∧ (signEntries env key seq signed).length ≤ maxRecordSize ∧
          r = ⟨signEntries env key seq signed, seq, env.pubKey key, store ∅ (sorted signed)⟩ := by
  have hall : ∀ e ∈ signedEntries env key entries, ∃ t : Rlp, e.marshalValue = .ok t.encode := by
    intro e he
    rcases mem_cons.mp he with rfl | he
    · exact ⟨.bytes v4, rfl⟩
    rcases mem_cons.mp he with rfl | he
    · exact ⟨.bytes _, rfl⟩
    · exact hitems e he
  obtain ⟨signed, hsigned, hnames, htrees, hmem⟩ := marshalEntries_ok hall
  refine ⟨signed, hsigned, hnames, hmem, fun r => ?_⟩
  have hid : (idKey, encodeBytes v4) ∈ signed := (hmem _ _).mpr ⟨_, mem_cons_self .., rfl, rfl⟩
  have hpub : (secp256k1Key, encodeBytes (env.serializeCompressed (env.pubKey key))) ∈ signed :=
    (hmem _ _).mpr ⟨_, mem_cons_of_mem _ (mem_cons_self ..), rfl, rfl⟩
  simp only [Sign, hsigned]
  exact decode_signEntries env hverify hkeys key seq signed htrees hid hpub r

theorem nodup_signed {names : List Bytes} : (idKey :: secp256k1Key :: names).Nodup ↔
    names.Nodup ∧ idKey ∉ names ∧ secp256k1Key ∉ names := by
  have hne : idKey ≠ secp256k1Key := by decide
  simp only [nodup_cons, mem_cons, hne, false_or]
  tauto

/-- **`Sign` on entries whose values are single canonical items**: it refuses a key that occurs twice or that
it adds itself, and a record over the limit, and nothing else.  The record it returns has the sequence
number and the identity it was given, keeps every value as it was marshalled, so that `Get` reads that
value, and has the same bytes for every order of the entries. -/
theorem sign_succeeds_iff (hverify : env.Verifies) (hkeys : env.ReadsKeys) (key : Priv) (seq : UInt64)
    (entries : List Entry) (hitems : ∀ e ∈ entries, ∃ t : Rlp, e.marshalValue = .ok t.encode) :
    (∃ signed, marshalEntries (signedEntries env key entries) = .ok signed ∧
      ((∃ r, Sign env (some key) seq entries = .ok r) ↔
        (entries.map (·.key)).Nodup ∧ idKey ∉ entries.map (·.key) ∧ secp256k1Key ∉ entries.map (·.key) ∧
          (signEntries env key seq signed).length ≤ maxRecordSize)) ∧
    ∀ r, Sign env (some key) seq entries = .ok r →
      r.Seq = seq ∧ r.PeerID env = env.PeerID (env.pubKey key) ∧
      (∀ e ∈ entries, ∀ value, e.marshalValue = .ok value → r.entries.get e.key = some value ∧
        ∀ (E : Type) (type : EntryType E), type.key = e.key →
          r.Get type = (type.unmarshalValue value).mapError (.value e.key)) ∧
      ∀ entries' : List Entry, entries'.Perm entries →
        ∃ r', Sign env (some key) seq entries' = .ok r' ∧ r'.Encode = r.Encode := by
  obtain ⟨signed, hsigned, hnames, hmem, hiff⟩ := sign_ok_iff env hverify hkeys key seq hitems
  refine ⟨⟨signed, hsigned, ?_⟩, ?_⟩
  · constructor
    · rintro ⟨r, hr⟩
      obtain ⟨hnodup, hsize, _⟩ := (hiff r).mp hr
      rw [hnames, nodup_signed] at hnodup
      exact ⟨hnodup.1, hnodup.2.1, hnodup.2.2, hsize⟩
    rintro ⟨hnodup, hid, hpub, hsize⟩
    refine ⟨_, (hiff _).mpr ⟨?_, hsize, rfl⟩⟩
    rw [hnames, nodup_signed]
    exact ⟨hnodup, hid, hpub⟩
  intro r hr
  obtain ⟨hnodup, hsize, rfl⟩ := (hiff r).mp hr
  have hasc := (ascending_sorted_iff signed).mpr hnodup
  refine ⟨rfl, rfl, fun e he value hvalue => ?_, fun entries' hperm => ?_⟩
  · have hin : (e.key, value) ∈ signed :=
      (hmem _ _).mpr ⟨e, mem_cons_of_mem _ (mem_cons_of_mem _ he), rfl, hvalue⟩
    have hget := (get_store_empty hasc e.key value).mpr ((sorted_perm signed).mem_iff.mpr hin)
    refine ⟨hget, fun E type hkey => ?_⟩
    simp only [Record.Get, Entries.Get, hkey, hget]
    cases type.unmarshalValue value <;> rfl
  -- the same entries in another order are sorted into the same list
  have hitems' : ∀ e ∈ entries', ∃ t : Rlp, e.marshalValue = .ok t.encode :=
    fun e he => hitems e (hperm.mem_iff.mp he)
  obtain ⟨signed', _, hnames', hmem', hiff'⟩ := sign_ok_iff env hverify hkeys key seq hitems'
  have hnodup' : (signed'.map (·.1)).Nodup := by
    rw [hnames, nodup_signed] at hnodup
    rw [hnames', nodup_signed, (hperm.map _).nodup_iff, (hperm.map _).mem_iff, (hperm.map _).mem_iff]
    exact hnodup
  have hsame : sorted signed' = sorted signed := by
    refine ((ascending_sorted_iff signed').mpr hnodup').ext hasc fun e => ?_
    rw [(sorted_perm signed').mem_iff, (sorted_perm signed).mem_iff, hmem', hmem]
    have hcons : (signedEntries env key entries').Perm (signedEntries env key entries) :=
      (hperm.cons _).cons _
    simp only [hcons.mem_iff]
  have hraw : signEntries env key seq signed' = signEntries env key seq signed := by
    unfold sorted at hsame
    unfold signEntries
    rw [hsame]
  exact ⟨_, (hiff' _).mpr ⟨hnodup', by rw [hraw]; exact hsize, rfl⟩, hraw⟩

theorem oneKey_verifies : oneKey.Verifies := by
  intro key hash
  have hlen : ((oneKey.signCompact key hash).drop 1).length = 64 := by
    simp only [oneKey]
    split <;> decide +kernel
  rw [Secp256k1.VerifyHash, Secp256k1.SignHash, if_neg (by rw [hlen]; simp)]
  simp [oneKey]

theorem oneKey_readsKeys : oneKey.ReadsKeys := by
  intro key
  simp only [oneKey, if_true, and_true]
  decide +kernel

/-- The address 127.0.0.1 and the port 30303. -/
def ipEntry : Entry := ⟨[0x69, 0x70], .ok (encodeBytes [127, 0, 0, 1])⟩
def udpEntry : Entry := ⟨[0x75, 0x64, 0x70], .ok (encodeBytes [0x76, 0x5f])⟩

/-- The entries of the example, in another order, give its bytes. -/
theorem sign_succeeds_iff_example : ∃ r, Sign oneKey (some ()) 1 [udpEntry, ipEntry] = .ok r ∧ r.Seq = 1 ∧
    r.entries.get ipEntry.key = some (encodeBytes [127, 0, 0, 1]) ∧ r.Encode = eip778Example := by
  have hitems : ∀ e ∈ [udpEntry, ipEntry], ∃ t : Rlp, e.marshalValue = .ok t.encode := by
    simp only [mem_cons, not_mem_nil, or_false, forall_eq_or_imp, forall_eq]
    exact ⟨⟨.bytes _, rfl⟩, ⟨.bytes _, rfl⟩⟩
  have hsign : (Sign oneKey (some ()) 1 [udpEntry, ipEntry]).toOption.map Record.Encode = some eip778Example := by
    decide +kernel
  cases hr : Sign oneKey (some ()) 1 [udpEntry, ipEntry] with
  | error err =>
    rw [hr] at hsign
    cases hsign
  | ok r =>
  obtain ⟨hseq, _, hentries, _⟩ :=
    (sign_succeeds_iff oneKey oneKey_verifies oneKey_readsKeys () 1 [udpEntry, ipEntry] hitems).2 r hr
  rw [hr] at hsign
  exact ⟨r, rfl, hseq, (hentries ipEntry (by simp) _ rfl).1, Option.some.inj hsign⟩

end EthP2P.Enr
