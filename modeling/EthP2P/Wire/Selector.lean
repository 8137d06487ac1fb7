/-
# EthP2P.Wire.Selector — stream headers are read one way only

A stream header is parsed twice, by `ParseSelector` from bytes that may still grow and by `ReadSelector`
from a stream.  A parse that has come to a result keeps it when more bytes follow (`parseSelector_append`),
and ten bytes always give one (`parseSelector_enough`).  So the reader, which tries after every byte, stops
with the parser's result behind the shortest bytes that have one.
-/
import EthP2P.Wire.Frame

namespace EthP2P.Wire

open Lib List

/-! ## One field -/

variable {i x n : Nat} {b input : Bytes} {selector : Selector}

/-- The number has no digit behind the fifth. -/
theorem field_bound {v : Nat} (hv : x + v * 2 ^ (7 * i) < 2 ^ 32) (hne : 0 < i → v ≠ 0) : i < maxFieldLen := by
  by_contra hlong
  have hlong' : 5 ≤ i := Nat.le_of_not_lt hlong
  have hpow : 2 ^ 35 ≤ 2 ^ (7 * i) := Nat.pow_le_pow_right (by decide) (by omega)
  have hmul : 1 * 2 ^ (7 * i) ≤ v * 2 ^ (7 * i) :=
    Nat.mul_le_mul_right _ (Nat.one_le_iff_ne_zero.mpr (hne (by omega)))
  omega

/-- A field is parsed back, from any byte of it on and whatever follows. -/
theorem parseFieldFrom_varintFuel {v : Nat} (hi : i + n = 9) (hx : x < 2 ^ (7 * i))
    (hv : x + v * 2 ^ (7 * i) < 2 ^ 32) (hne : 0 < i → v ≠ 0) (rest : Bytes) :
    parseFieldFrom i x (varintFuel n v ++ rest) =
      .ok (some (UInt32.ofNat (x + v * 2 ^ (7 * i)), i + (varintFuel n v).length)) := by
  have hfield := field_bound hv hne
  induction n generalizing i x v with
  | zero => exact absurd hfield (by rw [show i = 9 by omega]; decide)
  | succ n ih =>
    by_cases hsmall : v < 0x80
    · obtain ⟨hbyte, hlow⟩ := byte_ofNat hsmall
      have hmask : UInt8.ofNat v &&& 0x7f = UInt8.ofNat v := by
        rw [← UInt8.toNat_inj, UInt8.toNat_and, hbyte, show (0x7f : UInt8).toNat = 2 ^ 7 - 1 from rfl,
          Nat.and_two_pow_sub_one_eq_mod, Nat.mod_eq_of_lt hsmall]
      have hminimal : ¬ (i > 0 ∧ UInt8.ofNat v = 0) := by
        rintro ⟨hpos, hzero⟩
        apply hne hpos
        rw [← hbyte, hzero]
        rfl
      rw [varintFuel_of_lt hsmall, singleton_append, parseFieldFrom, if_neg (Nat.not_le.mpr hfield)]
      dsimp only
      rw [if_pos hlow, if_neg hminimal, hmask, hbyte, or_shiftLeft hx, if_neg (Nat.not_le.mpr hv)]
      rfl
    · obtain ⟨d, w, hd, hw, rfl⟩ := exists_digit hsmall
      obtain ⟨hor, hx', hsum⟩ := digit_step hx hd
      rw [← hsum] at hv ⊢
      rw [varintFuel_digit n hd hw, cons_append, parseFieldFrom, if_neg (Nat.not_le.mpr hfield)]
      dsimp only
      rw [if_neg (not_lt_iff_digit.mpr ⟨d, hd, rfl⟩), hor,
        ih (by omega) hx' hv (fun _ => hw) (field_bound hv fun _ => hw),
        length_cons, show i + 1 + (varintFuel n w).length = i + ((varintFuel n w).length + 1) by omega]

/-- **Only a field's own encoding is accepted**, from any byte of it on. -/
theorem parseFieldFrom_ok {m : Nat} {v : UInt32} (hi : i + n = 9) (hx : x < 2 ^ (7 * i))
    (h : parseFieldFrom i x b = .ok (some (v, m))) :
    ∃ w rest, b = varintFuel n w ++ rest ∧ m = i + (varintFuel n w).length ∧ v.toNat = x + w * 2 ^ (7 * i) ∧
      (0 < i → w ≠ 0) := by
  induction n generalizing i x b with
  | zero =>
    obtain rfl : i = 9 := by omega
    cases b with
    | nil => cases h
    | cons c b => cases h
  | succ n ih =>
    cases b with
    | nil =>
      rw [parseFieldFrom] at h
      split at h <;> cases h
    | cons c b =>
      rw [parseFieldFrom] at h
      split at h
      · cases h
      dsimp only at h
      split at h
      · rename_i hlow
        split at h
        · cases h
        rename_i hminimal
        split at h
        · cases h
        rename_i hvalue
        obtain ⟨rfl, rfl⟩ : UInt32.ofNat (x ||| ((c &&& 0x7f).toNat <<< (7 * i))) = v ∧ i + 1 = m := by
          simpa using h
        rw [UInt8.lt_iff_toNat_lt, show (0x80 : UInt8).toNat = 0x80 from rfl] at hlow
        have hmask : (c &&& 0x7f).toNat = c.toNat := by
          rw [UInt8.toNat_and, show (0x7f : UInt8).toNat = 2 ^ 7 - 1 from rfl,
            Nat.and_two_pow_sub_one_eq_mod, Nat.mod_eq_of_lt hlow]
        rw [hmask, or_shiftLeft hx] at hvalue ⊢
        refine ⟨c.toNat, b, ?_, ?_, ?_, ?_⟩
        · rw [varintFuel_of_lt hlow, UInt8.ofNat_toNat, singleton_append]
        · rw [varintFuel_of_lt hlow, length_singleton]
        · rw [UInt32.toNat_ofNat', Nat.mod_eq_of_lt (Nat.lt_of_not_le hvalue)]
        · intro hpos hzero
          exact hminimal ⟨hpos, UInt8.toNat_inj.mp hzero⟩
      · rename_i hhigh
        obtain ⟨d, hd, rfl⟩ := not_lt_iff_digit.mp hhigh
        obtain ⟨hor, hx', hsum⟩ := digit_step hx hd
        rw [hor] at h
        obtain ⟨w, rest, rfl, rfl, hv, hne⟩ := ih (by omega) hx' h
        have hw : w ≠ 0 := hne (Nat.succ_pos i)
        refine ⟨d + 0x80 * w, rest, ?_, ?_, ?_, ?_⟩
        · rw [varintFuel_digit n hd hw, cons_append]
        · rw [varintFuel_digit n hd hw, length_cons]
          omega
        · rw [hv, hsum]
        · omega

/-- A field that has come to a result keeps it. -/
theorem parseFieldFrom_append (h : parseFieldFrom i x b ≠ .ok none) (s : Bytes) :
    parseFieldFrom i x (b ++ s) = parseFieldFrom i x b := by
  induction b generalizing i x with
  | nil =>
    rw [parseFieldFrom] at h ⊢
    split at h
    · rename_i hlong
      rw [if_pos hlong]
      cases s with
      | nil => rw [nil_append, parseFieldFrom, if_pos hlong]
      | cons c s => rw [nil_append, parseFieldFrom, if_pos hlong]
    · exact absurd rfl h
  | cons c b ih =>
    rw [parseFieldFrom] at h
    rw [cons_append, parseFieldFrom, parseFieldFrom]
    split
    · rfl
    rename_i hfield
    rw [if_neg hfield] at h
    dsimp only at h ⊢
    split
    · rfl
    rename_i hhigh
    rw [if_neg hhigh] at h
    exact ih h

theorem parseFieldFrom_enough (h : maxFieldLen ≤ i + b.length) : parseFieldFrom i x b ≠ .ok none := by
  induction b generalizing i x with
  | nil =>
    rw [parseFieldFrom, if_pos (show i ≥ maxFieldLen from h)]
    simp
  | cons c b ih =>
    rw [parseFieldFrom]
    split
    · simp
    dsimp only
    split
    · split
      · simp
      split <;> simp
    · apply ih
      rw [length_cons] at h
      omega

/-- What a parsed field is: its encoding, of at most five bytes. -/
theorem parseField_ok {v : UInt32} {m : Nat} (h : parseField b = .ok (some (v, m))) :
    ∃ rest, b = varint v.toNat ++ rest ∧ m = (varint v.toNat).length ∧ m ≤ maxFieldLen := by
  obtain ⟨w, rest, rfl, rfl, hv, -⟩ := parseFieldFrom_ok (n := 9) (i := 0) (x := 0) rfl (by decide) h
  obtain rfl : v.toNat = w := by simpa using hv
  have hlen : (varint v.toNat).length ≤ 4 + 1 := length_varint_le (lt_trans v.toNat_lt (by decide))
  refine ⟨rest, rfl, Nat.zero_add _, ?_⟩
  rw [Nat.zero_add]
  exact hlen

theorem parseField_varint (v : UInt32) (rest : Bytes) :
    parseField (varint v.toNat ++ rest) = .ok (some (v, (varint v.toNat).length)) := by
  have h := parseFieldFrom_varintFuel (n := 9) (i := 0) (x := 0) (v := v.toNat) rfl (by decide)
    (by simpa using v.toNat_lt) (by omega) rest
  simpa [parseField, varint] using h

/-! ## The two fields of a header -/

/-- A header is parsed back, whatever follows it. -/
theorem parseSelector_appendSelector (hfamily : selector.family.toNat ≠ reservedFamily)
    (suffix : Bytes) : parseSelector (appendSelector [] selector ++ suffix) =
      .ok (some (selector, (appendSelector [] selector).length)) := by
  simp only [appendSelector, parseSelector, nil_append, append_assoc, parseField_varint, if_neg hfamily,
    drop_left, length_append]

/-- **Only a header's own encoding is accepted**, and no reserved family. -/
theorem parseSelector_ok (h : parseSelector b = .ok (some (selector, n))) :
    selector.family.toNat ≠ reservedFamily ∧
      ∃ rest, b = appendSelector [] selector ++ rest ∧ n = (appendSelector [] selector).length := by
  unfold parseSelector at h
  split at h
  · cases h
  · cases h
  rename_i family m hfirst
  obtain ⟨rest, rfl, rfl, -⟩ := parseField_ok hfirst
  split at h
  · cases h
  rename_i hfamily
  rw [drop_left] at h
  split at h
  · cases h
  · cases h
  rename_i protocol k hsecond
  obtain ⟨rest, rfl, rfl, -⟩ := parseField_ok hsecond
  obtain ⟨rfl, rfl⟩ : (⟨family, protocol⟩ : Selector) = selector ∧
    (varint family.toNat).length + (varint protocol.toNat).length = n := by simpa using h
  refine ⟨hfamily, rest, ?_, ?_⟩
  · simp [appendSelector]
  · simp [appendSelector]

/-- **A header that has come to a result keeps it.** -/
theorem parseSelector_append (h : parseSelector b ≠ .ok none) (s : Bytes) :
    parseSelector (b ++ s) = parseSelector b := by
  have hfield : parseField b ≠ .ok none := by
    intro hnone
    simp only [parseSelector, hnone] at h
    exact h rfl
  have hgrow : parseField (b ++ s) = parseField b := parseFieldFrom_append hfield s
  unfold parseSelector at h ⊢
  rw [hgrow]
  split
  · rfl
  · rfl
  rename_i family n hfirst
  obtain ⟨rest, rfl, rfl, -⟩ := parseField_ok hfirst
  rw [hfirst] at h
  dsimp only at h
  split
  · rfl
  rename_i hfamily
  rw [if_neg hfamily, drop_left] at h
  rw [append_assoc, drop_left, drop_left]
  have hfield' : parseField rest ≠ .ok none := by
    intro hnone
    rw [hnone] at h
    exact h rfl
  rw [show parseField (rest ++ s) = parseField rest from parseFieldFrom_append hfield' s]

/-- Two fields fit in ten bytes. -/
theorem parseSelector_enough (h : maxHeaderLen ≤ b.length) : parseSelector b ≠ .ok none := by
  have hlong : 10 ≤ b.length := h
  unfold parseSelector
  split
  · simp
  · rename_i hfirst
    exact absurd hfirst (parseFieldFrom_enough (show 5 ≤ 0 + b.length by omega))
  rename_i family n hfirst
  obtain ⟨rest, hb, hn, hle⟩ := parseField_ok hfirst
  have hle' : n ≤ 5 := hle
  split
  · simp
  split
  · simp
  · rename_i hsecond
    refine absurd hsecond (parseFieldFrom_enough (show 5 ≤ 0 + (b.drop n).length from ?_))
    rw [length_drop]
    omega
  · simp

/-! ## Reading from a stream -/

/-- What `ReadSelector` makes of a parse that has come to a result. -/
def selected : Except HeaderError (Option (Selector × Nat)) → Except ReadError Selector
  | .error e => .error (.invalidHeader e)
  | .ok (some (selector, _)) => .ok selector
  | .ok none => .error .unreachable

/-- The first `k` bytes are the shortest ones of which the parser knows what they are. -/
structure Decides (input : Bytes) (k : Nat) : Prop where
  within : k ≤ input.length
  decided : parseSelector (input.take k) ≠ .ok none
  first : ∀ j < k, parseSelector (input.take j) = .ok none

/-- One byte of the loop: the parser knows, or the loop goes on. -/
theorem readSelectorFrom_stop (left : Nat) {head : Bytes} {b : UInt8} (rest : Bytes)
    (h : parseSelector (head ++ [b]) ≠ .ok none) :
    readSelectorFrom (left + 1) head (b :: rest) = (selected (parseSelector (head ++ [b])), rest) := by
  rw [readSelectorFrom]
  split
  · rename_i e hparse
    rw [hparse]
    rfl
  · rename_i selector n hparse
    rw [hparse]
    rfl
  · rename_i hparse
    exact absurd hparse h

theorem readSelectorFrom_wait (left : Nat) {head : Bytes} {b : UInt8} (rest : Bytes)
    (h : parseSelector (head ++ [b]) = .ok none) :
    readSelectorFrom (left + 1) head (b :: rest) = readSelectorFrom left (head ++ [b]) rest := by
  simp only [readSelectorFrom, h]

theorem readSelectorFrom_decided {left k : Nat} (head : Bytes) (hk : k < left) (hlen : k < input.length)
    (hdecided : parseSelector (head ++ input.take (k + 1)) ≠ .ok none)
    (hfirst : ∀ j < k, parseSelector (head ++ input.take (j + 1)) = .ok none) :
    readSelectorFrom left head input = (selected (parseSelector (head ++ input.take (k + 1))), input.drop (k + 1)) := by
  induction left generalizing head input k with
  | zero => omega
  | succ left ih =>
    cases input with
    | nil => simp at hlen
    | cons b rest =>
      cases k with
      | zero => exact readSelectorFrom_stop left rest hdecided
      | succ k =>
        have hnext : ∀ j, head ++ (b :: rest).take (j + 1) = (head ++ [b]) ++ rest.take j := by
          intro j
          simp
        have hwait : parseSelector (head ++ [b]) = .ok none := hfirst 0 (Nat.succ_pos k)
        rw [readSelectorFrom_wait left rest hwait]
        rw [hnext] at hdecided ⊢
        refine ih (head ++ [b]) (by omega) (by simpa using hlen) hdecided ?_
        intro j hj
        rw [← hnext]
        exact hfirst (j + 1) (by omega)

theorem readSelectorFrom_undecided {left : Nat} (head : Bytes) (hlen : input.length < left)
    (hnone : ∀ j < input.length, parseSelector (head ++ input.take (j + 1)) = .ok none) :
    readSelectorFrom left head input = (.error (if head = [] ∧ input = [] then .eof else .unexpectedEOF), []) := by
  induction left generalizing head input with
  | zero => omega
  | succ left ih =>
    cases input with
    | nil => simp [readSelectorFrom]
    | cons b rest =>
      rw [length_cons] at hlen hnone
      have hwait : parseSelector (head ++ [b]) = .ok none := hnone 0 (Nat.succ_pos _)
      rw [readSelectorFrom_wait left rest hwait, ih (head ++ [b]) (by omega), if_neg (by simp), if_neg (by simp)]
      intro j hj
      have hnext := hnone (j + 1) (by omega)
      simpa using hnext

/-- Every input has a shortest decided part within a header's length, or none at all. -/
theorem decides_cases (input : Bytes) : (∃ k, Decides input k ∧ 0 < k ∧ k ≤ maxHeaderLen) ∨
    (∀ k, ¬ Decides input k) ∧ ∀ j, parseSelector (input.take j) = .ok none := by
  by_cases hsome : ∃ k, parseSelector (input.take k) ≠ .ok none
  · have hleast := Nat.find_spec hsome
    have hmin : ∀ {j}, j < Nat.find hsome → parseSelector (input.take j) = .ok none :=
      fun hj => not_not.mp (Nat.find_min hsome hj)
    have hpos : 0 < Nat.find hsome := by
      rw [Nat.pos_iff_ne_zero]
      intro hzero
      rw [hzero] at hleast
      exact hleast rfl
    have hwithin : Nat.find hsome ≤ input.length := by
      by_contra hlong
      have hall := hmin (Nat.lt_of_not_le hlong)
      rw [take_length] at hall
      rw [take_of_length_le (by omega)] at hleast
      exact hleast hall
    refine .inl ⟨_, ⟨hwithin, hleast, fun j hj => hmin hj⟩, hpos, ?_⟩
    by_contra hlong
    refine parseSelector_enough ?_ (hmin (Nat.lt_of_not_le hlong))
    rw [length_take_of_le (by omega)]
  · push Not at hsome
    exact .inr ⟨fun k hk => hk.decided (hsome k), hsome⟩

theorem readSelector_decides {k : Nat} (h : Decides input k) (hpos : 0 < k) (hk : k ≤ maxHeaderLen) :
    readSelector input = (selected (parseSelector (input.take k)), input.drop k) := by
  have hwithin := h.within
  obtain ⟨k, rfl⟩ : ∃ m, k = m + 1 := ⟨k - 1, by omega⟩
  exact readSelectorFrom_decided [] (by omega) (by omega) h.decided
    (fun j hj => h.first (j + 1) (by omega))

theorem readSelector_undecided (h : ∀ j, parseSelector (input.take j) = .ok none) :
    readSelector input = (.error (if input = [] then .eof else .unexpectedEOF), []) := by
  have hlen : input.length < maxHeaderLen := by
    by_contra hlong
    refine parseSelector_enough (Nat.le_of_not_lt hlong) ?_
    have hall := h input.length
    rwa [take_length] at hall
  have hread := readSelectorFrom_undecided [] hlen (fun j _ => h (j + 1))
  simpa [readSelector] using hread

theorem selected_ne_unreachable {r : Except HeaderError (Option (Selector × Nat))} (h : r ≠ .ok none) :
    selected r ≠ .error .unreachable := by
  intro hr
  unfold selected at hr
  split at hr
  · simp at hr
  · cases hr
  · exact h rfl

/-! ## Sorting bidirectional streams -/

/-- `classifyBi` (`transport/conn.go`): is the first byte the one of a multistream-select header; `none`
where there is no byte to peek at. -/
def classifyBi (stream : Bytes) : Option Bool := stream.head?.map (· == 0x13)

theorem classifyBi_appendSelector (hfamily : selector.family.toNat ≠ reservedFamily)
    (suffix : Bytes) : classifyBi (appendSelector [] selector ++ suffix) = some false := by
  have hparse := parseSelector_appendSelector hfamily suffix
  cases hb : appendSelector [] selector ++ suffix with
  | nil =>
    rw [hb] at hparse
    cases hparse
  | cons b rest =>
    rw [hb] at hparse
    rw [classifyBi, head?_cons, Option.map_some, Option.some.injEq, beq_eq_false_iff_ne]
    rintro rfl
    -- the byte would be a complete field, of the reserved family
    have hreserved : parseSelector (0x13 :: rest) = .error .reserved := by
      have hfield : parseField (0x13 :: rest) = .ok (some (19, 1)) := rfl
      simp only [parseSelector, hfield]
      rfl
    rw [hreserved] at hparse
    cases hparse

/-- **Stream headers**: the parser takes back what is written and nothing else, waits on a part of a header,
and keeps its result when more follows; the reader agrees with it and stops behind the bytes that decide;
and no header looks like libp2p. -/
theorem selector_codec :
    (∀ (selector : Selector) (suffix : Bytes), selector.family.toNat ≠ reservedFamily →
      parseSelector (appendSelector [] selector ++ suffix) =
        .ok (some (selector, (appendSelector [] selector).length))) ∧
    (∀ (selector : Selector) (cut missing : Bytes), selector.family.toNat ≠ reservedFamily →
      cut ++ missing = appendSelector [] selector → missing ≠ [] → parseSelector cut = .ok none) ∧
    (∀ (b : Bytes) (selector : Selector) (n : Nat), parseSelector b = .ok (some (selector, n)) →
      b.take n = appendSelector [] selector ∧ selector.family.toNat ≠ reservedFamily ∧ classifyBi b = some false) ∧
    (∀ b s : Bytes, parseSelector b ≠ .ok none → parseSelector (b ++ s) = parseSelector b) ∧
    (∀ (input : Bytes) (k : Nat), Decides input k →
      readSelector input = (selected (parseSelector (input.take k)), input.drop k)) ∧
    (∀ input : Bytes, (∀ k, ¬ Decides input k) →
      readSelector input = (.error (if input = [] then .eof else .unexpectedEOF), [])) ∧
    ∀ input : Bytes, (readSelector input).1 ≠ .error .unreachable := by
  have hunique : ∀ {input : Bytes} {k m : Nat}, Decides input k → Decides input m → k = m := by
    intro input k m hk hm
    rcases lt_trichotomy k m with hlt | heq | hlt
    · exact absurd (hm.first k hlt) hk.decided
    · exact heq
    · exact absurd (hk.first m hlt) hm.decided
  refine ⟨fun _ suffix hfamily => parseSelector_appendSelector hfamily suffix, ?_, ?_,
    fun b s h => parseSelector_append h s, ?_, ?_, ?_⟩
  · intro selector cut missing hfamily hcut hmissing
    by_contra hdecided
    -- the part would already be the whole header
    have hgrow := parseSelector_append hdecided missing
    have hwhole := parseSelector_appendSelector hfamily []
    rw [append_nil] at hwhole
    rw [hcut, hwhole] at hgrow
    obtain ⟨-, rest, hb, hn⟩ := parseSelector_ok hgrow.symm
    have hlen := congrArg length hcut
    have hpos := length_pos_iff.mpr hmissing
    rw [hb] at hlen
    simp only [length_append] at hlen
    omega
  · intro b selector n h
    obtain ⟨hfamily, rest, rfl, rfl⟩ := parseSelector_ok h
    exact ⟨take_left, hfamily, classifyBi_appendSelector hfamily rest⟩
  · intro input k hk
    rcases decides_cases input with ⟨m, hm, hpos, hle⟩ | ⟨hnone, -⟩
    · obtain rfl := hunique hk hm
      exact readSelector_decides hk hpos hle
    · exact absurd hk (hnone k)
  · intro input hinput
    rcases decides_cases input with ⟨m, hm, -, -⟩ | ⟨-, hnone⟩
    · exact absurd hm (hinput m)
    · exact readSelector_undecided hnone
  · intro input
    rcases decides_cases input with ⟨m, hm, hpos, hle⟩ | ⟨-, hnone⟩
    · rw [readSelector_decides hm hpos hle]
      exact selected_ne_unreachable hm.decided
    rw [readSelector_undecided hnone]
    split <;> exact fun h => by cases h

/-- The header of family 1, protocol 300, in three bytes: whole, cut, and in front of other bytes. -/
theorem selector_codec_family_one :
    parseSelector (appendSelector [] ⟨1, 300⟩ ++ [7]) = .ok (some (⟨1, 300⟩, 3)) ∧
      parseSelector [1, 0xac] = .ok none ∧ Decides [1, 0xac, 2, 7] 3 ∧
      readSelector [1, 0xac, 2, 7] = (.ok ⟨1, 300⟩, [7]) := by
  obtain ⟨hparse, hcut, -, -, hread, -⟩ := selector_codec
  have hdecides : Decides [1, 0xac, 2, 7] 3 := ⟨by decide, by decide, by decide⟩
  exact ⟨hparse ⟨1, 300⟩ [7] (by decide), hcut ⟨1, 300⟩ [1, 0xac] [2] (by decide) (by decide) (by decide),
    hdecides, hread [1, 0xac, 2, 7] 3 hdecides⟩

end EthP2P.Wire
