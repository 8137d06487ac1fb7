/-
# EthP2P.Lib.Varint — base-128 varints

Seven bits a byte, least significant first; the high bit says that another byte follows.  `varint` is
the encoder of both Go's `encoding/binary` and protobuf; `readVarint` is the reader of the former, which
takes a byte at a time and so leaves what follows the number unread (`readVarint_varint`).
-/
import Mathlib.Algebra.Order.Ring.Nat
import Mathlib.Tactic.Ring

namespace EthP2P.Lib

/-- The varint of a number, in at most `fuel + 1` bytes. -/
def varintFuel : Nat → Nat → List UInt8
  | 0, v => [UInt8.ofNat v]
  | fuel + 1, v =>
    if v < 0x80 then [UInt8.ofNat v] else UInt8.ofNat (v % 0x80 + 0x80) :: varintFuel fuel (v / 0x80)

/-- The varint of a 64-bit number, which has at most ten bytes. -/
def varint (v : Nat) : List UInt8 := varintFuel 9 v

inductive VarintError where
  /-- Nothing was there. -/
  | eof
  | unexpectedEOF
  | overflow
  deriving DecidableEq, Repr

/-- The loop of `ReadUvarint` at byte number `i`, the bits before it in `x`.  What is left of the input
is told also where the reader fails. -/
def readVarintLoop : Nat → Nat → Nat → List UInt8 → Except VarintError Nat × List UInt8
  | 0, _, _, input => (.error .overflow, input)
  | _ + 1, i, _, [] => (.error (if i > 0 then .unexpectedEOF else .eof), [])
  | left + 1, i, x, b :: rest =>
    if b < 0x80 then
      if i = 9 ∧ b > 1 then (.error .overflow, rest) else (.ok (x ||| (b.toNat <<< (7 * i))), rest)
    else readVarintLoop left (i + 1) (x ||| ((b &&& 0x7f).toNat <<< (7 * i))) rest

/-- `binary.ReadUvarint`: the number, and the input behind it. -/
def readVarint (input : List UInt8) : Except VarintError Nat × List UInt8 := readVarintLoop 10 0 0 input

variable {k x v d i n : Nat}

theorem or_shiftLeft (h : x < 2 ^ k) (a : Nat) : x ||| (a <<< k) = x + a * 2 ^ k := by
  rw [Nat.or_comm, ← Nat.shiftLeft_add_eq_or_of_lt h, Nat.shiftLeft_eq, Nat.add_comm]

theorem byte_ofNat (h : v < 0x80) : (UInt8.ofNat v).toNat = v ∧ UInt8.ofNat v < 0x80 := by
  have hbyte : (UInt8.ofNat v).toNat = v := by
    rw [UInt8.toNat_ofNat']
    omega
  refine ⟨hbyte, ?_⟩
  rw [UInt8.lt_iff_toNat_lt, hbyte]
  exact h

/-- A byte that another follows carries a digit. -/
theorem not_lt_iff_digit {b : UInt8} : ¬ b < 0x80 ↔ ∃ d < 0x80, b = UInt8.ofNat (d + 0x80) := by
  constructor
  · intro h
    rw [UInt8.not_lt, UInt8.le_iff_toNat_le, show (0x80 : UInt8).toNat = 0x80 from rfl] at h
    have hlt := b.toNat_lt
    refine ⟨b.toNat - 0x80, by omega, ?_⟩
    rw [Nat.sub_add_cancel h, UInt8.ofNat_toNat]
  · rintro ⟨d, hd, rfl⟩
    rw [UInt8.lt_iff_toNat_lt, UInt8.toNat_ofNat', show (0x80 : UInt8).toNat = 0x80 from rfl]
    omega

/-- **A digit joins the number**: `x` holds the digits before number `i`, and `w` is what is above it. -/
theorem digit_step (hx : x < 2 ^ (7 * i)) (hd : d < 0x80) :
    x ||| ((UInt8.ofNat (d + 0x80) &&& 0x7f).toNat <<< (7 * i)) = x + d * 2 ^ (7 * i) ∧
      x + d * 2 ^ (7 * i) < 2 ^ (7 * (i + 1)) ∧
      ∀ w, x + d * 2 ^ (7 * i) + w * 2 ^ (7 * (i + 1)) = x + (d + 0x80 * w) * 2 ^ (7 * i) := by
  have hlow : (UInt8.ofNat (d + 0x80) &&& 0x7f).toNat = d := by
    rw [UInt8.toNat_and, show (0x7f : UInt8).toNat = 2 ^ 7 - 1 from rfl, Nat.and_two_pow_sub_one_eq_mod,
      UInt8.toNat_ofNat']
    omega
  have hpow : 2 ^ (7 * (i + 1)) = 2 ^ (7 * i) * 0x80 := by
    rw [Nat.mul_add, pow_add]
    norm_num
  refine ⟨?_, ?_, ?_⟩
  · rw [hlow, or_shiftLeft hx]
  · have hmul : d * 2 ^ (7 * i) ≤ 0x7f * 2 ^ (7 * i) := Nat.mul_le_mul_right _ (by omega)
    rw [hpow]
    omega
  · intro w
    rw [hpow]
    ring

theorem varintFuel_of_lt (h : v < 0x80) : varintFuel n v = [UInt8.ofNat v] := by
  cases n with
  | zero => rfl
  | succ n => rw [varintFuel, if_pos h]

theorem varintFuel_digit (n : Nat) {w : Nat} (hd : d < 0x80) (hw : w ≠ 0) :
    varintFuel (n + 1) (d + 0x80 * w) = UInt8.ofNat (d + 0x80) :: varintFuel n w := by
  rw [varintFuel, if_neg (by omega), show (d + 0x80 * w) % 0x80 = d by omega,
    show (d + 0x80 * w) / 0x80 = w by omega]

theorem varintFuel_ne_nil (n v : Nat) : varintFuel n v ≠ [] := by
  cases n with
  | zero => exact List.cons_ne_nil _ _
  | succ n =>
    rw [varintFuel]
    split <;> exact List.cons_ne_nil _ _

/-- A number above the low digit, taken apart. -/
theorem exists_digit (h : ¬ v < 0x80) : ∃ d w, d < 0x80 ∧ w ≠ 0 ∧ v = d + 0x80 * w :=
  ⟨v % 0x80, v / 0x80, by omega, by omega, by omega⟩

/-- The numbers that fit above digit number `i`. -/
theorem digit_bound {size w : Nat} (hi : 7 * (i + 1) ≤ size) (hd : d < 0x80) :
    d + 0x80 * w < 2 ^ (size - 7 * i) ↔ w < 2 ^ (size - 7 * (i + 1)) := by
  have hsplit : 2 ^ (size - 7 * i) = 0x80 * 2 ^ (size - 7 * (i + 1)) := by
    rw [show size - 7 * i = 7 + (size - 7 * (i + 1)) by omega, pow_add]
    norm_num
  rw [hsplit]
  omega

/-- **A varint is read back**, from any byte of it on and whatever follows. -/
theorem readVarintLoop_varintFuel (hi : i + n = 9) (hx : x < 2 ^ (7 * i))
    (hv : v < 2 ^ (64 - 7 * i)) (rest : List UInt8) :
    readVarintLoop (n + 1) i x (varintFuel n v ++ rest) = (.ok (x + v * 2 ^ (7 * i)), rest) := by
  induction n generalizing i x v with
  | zero =>
    obtain rfl : i = 9 := by omega
    have hv' : v < 2 := by simpa using hv
    obtain ⟨hbyte, hlow⟩ := byte_ofNat (show v < 0x80 by omega)
    have hone : ¬ UInt8.ofNat v > 1 := by
      rw [gt_iff_lt, UInt8.lt_iff_toNat_lt, hbyte, UInt8.toNat_one]
      omega
    simp only [varintFuel, List.singleton_append, readVarintLoop]
    rw [if_pos hlow, if_neg (by simp [hone]), hbyte, or_shiftLeft hx]
  | succ n ih =>
    by_cases hsmall : v < 0x80
    · obtain ⟨hbyte, hlow⟩ := byte_ofNat hsmall
      rw [varintFuel_of_lt hsmall, List.singleton_append, readVarintLoop, if_pos hlow, if_neg (by omega), hbyte,
        or_shiftLeft hx]
    obtain ⟨d, w, hd, hw, rfl⟩ := exists_digit hsmall
    obtain ⟨hor, hx', hsum⟩ := digit_step hx hd
    rw [varintFuel_digit n hd hw, List.cons_append, readVarintLoop, if_neg (not_lt_iff_digit.mpr ⟨d, hd, rfl⟩),
      hor, ih (by omega) hx' ((digit_bound (by omega) hd).mp hv), hsum]

/-- **What the reader accepts**: bytes of a number, at least as many as the encoder needs for it, and the
encoder's own if they are no more. -/
theorem readVarintLoop_ok {input rest : List UInt8} (hi : i + n = 9) (hx : x < 2 ^ (7 * i))
    (h : readVarintLoop (n + 1) i x input = (.ok v, rest)) :
    ∃ w read, input = read ++ rest ∧ v = x + w * 2 ^ (7 * i) ∧ w < 2 ^ (64 - 7 * i) ∧
      (varintFuel n w).length ≤ read.length ∧
      (read.length = (varintFuel n w).length → read = varintFuel n w) := by
  induction n generalizing i x input with
  | zero =>
    obtain rfl : i = 9 := by omega
    cases input with
    | nil => cases h
    | cons b input =>
      rw [readVarintLoop] at h
      split at h
      · split at h
        · cases h
        rename_i hone
        obtain ⟨rfl, rfl⟩ : x ||| (b.toNat <<< (7 * 9)) = v ∧ input = rest := by simpa using h
        rw [not_and, gt_iff_lt, UInt8.not_lt, UInt8.le_iff_toNat_le, UInt8.toNat_one] at hone
        have hb := hone rfl
        refine ⟨b.toNat, [b], rfl, or_shiftLeft hx _, by omega, le_rfl, fun _ => ?_⟩
        rw [varintFuel, UInt8.ofNat_toNat]
      · cases h
  | succ n ih =>
    cases input with
    | nil => cases h
    | cons b input =>
      rw [readVarintLoop] at h
      split at h
      · rename_i hlow
        rw [if_neg (by omega)] at h
        obtain ⟨rfl, rfl⟩ : x ||| (b.toNat <<< (7 * i)) = v ∧ input = rest := by simpa using h
        rw [UInt8.lt_iff_toNat_lt, show (0x80 : UInt8).toNat = 2 ^ 7 from rfl] at hlow
        have hpow : 2 ^ 7 ≤ 2 ^ (64 - 7 * i) := Nat.pow_le_pow_right (by decide) (by omega)
        have hfuel : varintFuel (n + 1) b.toNat = [b] := by
          rw [varintFuel_of_lt hlow, UInt8.ofNat_toNat]
        refine ⟨b.toNat, [b], rfl, or_shiftLeft hx _, by omega, ?_, ?_⟩
        · rw [hfuel]
        · rw [hfuel]
          exact fun _ => rfl
      rename_i hhigh
      obtain ⟨d, hd, rfl⟩ := not_lt_iff_digit.mp hhigh
      obtain ⟨hor, hx', hsum⟩ := digit_step hx hd
      rw [hor] at h
      obtain ⟨w, read, rfl, rfl, hw, hle, hmin⟩ := ih (by omega) hx' h
      refine ⟨d + 0x80 * w, UInt8.ofNat (d + 0x80) :: read, rfl, hsum w, (digit_bound (by omega) hd).mpr hw, ?_⟩
      rcases eq_or_ne w 0 with rfl | hne
      · -- the digits above are all zero: the encoder would have stopped here
        have hpos := List.length_pos_iff.mpr (varintFuel_ne_nil n 0)
        rw [varintFuel_of_lt (by omega)]
        simp only [List.length_cons, List.length_nil]
        exact ⟨by omega, fun hlen => by omega⟩
      · rw [varintFuel_digit n hd hne]
        simp only [List.length_cons]
        refine ⟨by omega, fun hlen => ?_⟩
        rw [hmin (by omega)]

/-- A varint that is cut short is no number: the reader runs into the end. -/
theorem readVarintLoop_take (hi : i + n = 9) (hx : x < 2 ^ (7 * i)) (hv : v < 2 ^ (64 - 7 * i))
    (hk : k < (varintFuel n v).length) :
    readVarintLoop (n + 1) i x ((varintFuel n v).take k) =
      (.error (if i + k > 0 then .unexpectedEOF else .eof), []) := by
  induction n generalizing i x v k with
  | zero =>
    obtain rfl : k = 0 := by simpa [varintFuel] using hk
    rfl
  | succ n ih =>
    cases k with
    | zero => rfl
    | succ k =>
      by_cases hsmall : v < 0x80
      · rw [varintFuel_of_lt hsmall, List.length_singleton] at hk
        omega
      obtain ⟨d, w, hd, hw, rfl⟩ := exists_digit hsmall
      obtain ⟨hor, hx', -⟩ := digit_step hx hd
      rw [varintFuel_digit n hd hw] at hk ⊢
      rw [List.length_cons] at hk
      rw [List.take_succ_cons, readVarintLoop, if_neg (not_lt_iff_digit.mpr ⟨d, hd, rfl⟩), hor,
        ih (by omega) hx' ((digit_bound (by omega) hd).mp hv) (by omega), if_pos (by omega), if_pos (by omega)]

/-- A reader for an encoder: it reads back what was written, and takes no fewer bytes for a value than the encoder
writes, and no others if they are as many. -/
structure Shortest {α : Type} (valid : α → Prop) (encode : α → List UInt8)
    (read : List UInt8 → Option (α × List UInt8)) : Prop where
  nonempty : ∀ a, encode a ≠ []
  back : ∀ a rest, valid a → read (encode a ++ rest) = some (a, rest)
  least : ∀ {b a rest}, read b = some (a, rest) → ∃ taken, b = taken ++ rest ∧
    (encode a).length ≤ taken.length ∧ (taken.length = (encode a).length → taken = encode a)

theorem readVarint_varint (hv : v < 2 ^ 64) (rest : List UInt8) : readVarint (varint v ++ rest) = (.ok v, rest) := by
  have h := readVarintLoop_varintFuel (n := 9) (i := 0) (x := 0) rfl (by decide) (by simpa using hv) rest
  simpa [readVarint, varint] using h

theorem length_varintFuel_le {fuel : Nat} (h : v < 2 ^ (7 * (k + 1))) : (varintFuel fuel v).length ≤ k + 1 := by
  induction fuel generalizing k v with
  | zero => simp [varintFuel]
  | succ fuel ih =>
    unfold varintFuel
    split
    · simp
    rename_i hbig
    have hk : k ≠ 0 := by
      rintro rfl
      exact hbig (by simpa using h)
    obtain ⟨k, rfl⟩ : ∃ j, k = j + 1 := ⟨k - 1, by omega⟩
    have hdiv : v / 0x80 < 2 ^ (7 * (k + 1)) := by
      have hsplit : 2 ^ (7 * (k + 1 + 1)) = 0x80 * 2 ^ (7 * (k + 1)) := by
        rw [show 7 * (k + 1 + 1) = 7 + 7 * (k + 1) by omega, pow_add]
        norm_num
      rw [hsplit] at h
      exact Nat.div_lt_of_lt_mul h
    rw [List.length_cons]
    have hle := ih hdiv
    omega

theorem length_varint_le (h : v < 2 ^ (7 * (k + 1))) : (varint v).length ≤ k + 1 :=
  length_varintFuel_le h

end EthP2P.Lib
