import Bincache.Lib.Numeral
import Bincache.Lib.Text
import Mathlib.Data.Vector.Basic

/-!
# Nix base32

The codec of store path hashes and digests: the alphabet without `e`, `o`, `t` and `u`, the last
digit written first, and five-bit digits that straddle byte boundaries. Both directions work on the
bytes as the source does, one window or one byte at a time; `value_decodeStep` and
`window_mod` are where the bit operations become arithmetic on the little-endian value.
-/

namespace Bincache

/-- A byte string of a fixed width. -/
abbrev Octets (n : ℕ) := List.Vector UInt8 n

namespace Base32

/-- The digits in order of their value. -/
def alphabet : Text := "0123456789abcdfghijklmnpqrsvwxyz".toList

/-- Sentinel for a lowercase letter that `alphabet` drops. -/
def dropped : UInt8 := 255

/-- The position in `alphabet` of each ASCII lowercase letter. -/
def letters : List UInt8 :=
  [10, 11, 12, 13, dropped, 14, 15, 16, 17, 18, 19, 20, 21, 22, dropped, 23, 24, 25, 26, dropped,
    dropped, 27, 28, 29, 30, 31]

def bits : ℕ := 5

inductive Error
  | length (expected found : ℕ)
  | alphabet (byte : UInt8)
  | overflow (overflow : UInt8) (width : ℕ)
deriving DecidableEq, Repr

/-- Characters needed to encode `width` bytes, for a positive width. -/
def textLen (width : ℕ) : ℕ := (width * 8 - 1) / bits + 1

/-- The sixteen bits from digit `index` on, shifted so that the digit is lowest. -/
def window (bytes : Bytes) (index : ℕ) : ℕ :=
  let bit := index * bits
  let byte := bit / 8
  let shift := bit % 8
  let low := bytes.getD byte 0
  let high := if byte + 1 < bytes.length then bytes.getD (byte + 1) 0 else 0
  (low.toNat + 256 * high.toNat) >>> shift

def encode (bytes : Bytes) : Text :=
  (List.range (textLen bytes.length)).reverse.map fun index ↦
    alphabet.getD (window bytes index &&& 0x1f) '0'

def digit (character : UInt8) : Except Error UInt8 :=
  if 48 ≤ character ∧ character ≤ 57 then .ok (character - 48)
  else if 97 ≤ character ∧ character ≤ 122 then
    let position := letters.getD (character - 97).toNat dropped
    if position ≠ dropped then .ok position else .error (.alphabet character)
  else .error (.alphabet character)

/-- Ors one byte into a byte string in place. -/
def orAt {n : ℕ} (bytes : Octets n) (index : ℕ) (byte : UInt8) : Octets n :=
  ⟨bytes.1.modify index (· ||| byte), by rw [List.length_modify, bytes.2]⟩

/-- Adds digit number `index`, counted from the end of the text. -/
def decodeStep {n : ℕ} (bytes : Octets n) (index : ℕ) (character : UInt8) :
    Except Error (Octets n) := do
  let digit ← digit character
  let bit := index * bits
  let byte := bit / 8
  let shift := bit % 8
  let shifted := digit.toNat <<< shift
  let low := UInt8.ofNat shifted
  let high := UInt8.ofNat (shifted >>> 8)
  let bytes := orAt bytes byte low
  if byte + 1 < n then
    pure (orAt bytes (byte + 1) high)
  else if high = 0 then
    pure bytes
  else
    throw (.overflow high n)

/-- Adds the digits of a reversed text, from digit number `index` on. -/
def decodeFrom {n : ℕ} (index : ℕ) (bytes : Octets n) : Bytes → Except Error (Octets n)
  | [] => pure bytes
  | character :: rest => do
    let bytes ← decodeStep bytes index character
    decodeFrom (index + 1) bytes rest

def decode (n : ℕ) (text : Text) : Except Error (Octets n) :=
  let expected := textLen n
  if Text.byteLen text = expected then
    decodeFrom 0 (List.Vector.replicate n 0) (Text.utf8 text).reverse
  else .error (.length expected (Text.byteLen text))

/-! ## Digits -/

theorem digit_alphabet : ∀ d < 32,
    digit (alphabet.getD d '0').toUInt8 = .ok (UInt8.ofNat d) := by decide

theorem alphabet_ascii : ∀ d < 32, (alphabet.getD d '0').toNat < 128 := by decide

theorem and_eq_mod (n : ℕ) : n &&& 0x1f = n % 32 := Nat.and_two_pow_sub_one_eq_mod n 5

/-- Digit `index` starts at bit `index * bits`: in this byte, this far up. -/
theorem pow_place (index : ℕ) :
    32 ^ index = 256 ^ (index * bits / 8) * 2 ^ (index * bits % 8) := by
  rw [show 32 = 2 ^ 5 from rfl, show 256 = 2 ^ 8 from rfl, ← pow_mul, ← pow_mul, ← pow_add,
    Nat.div_add_mod, Nat.mul_comm 5 index, bits]

theorem window_mod (bytes : Bytes) (index : ℕ) :
    window bytes index % 32 = Numeral.value bytes / 32 ^ index % 32 := by
  rw [pow_place, window]
  generalize index * bits / 8 = byte
  have hlt : index * bits % 8 < 8 := Nat.mod_lt _ (by decide)
  generalize index * bits % 8 = shift at hlt
  have hhigh : (if byte + 1 < bytes.length then bytes.getD (byte + 1) 0 else 0)
      = bytes.getD (byte + 1) 0 := by
    split
    · rfl
    · rw [List.getD_eq_default _ _ (by omega)]
  rw [hhigh, Numeral.window_eq, Nat.shiftRight_eq_div_pow, ← Nat.div_div_eq_div_mul]
  interval_cases shift <;> omega

theorem encode_eq (bytes : Bytes) :
    encode bytes = (List.range (textLen bytes.length)).reverse.map fun index ↦
      alphabet.getD (Numeral.value bytes / 32 ^ index % 32) '0' := by
  simp only [encode, and_eq_mod, window_mod]

theorem length_encode (bytes : Bytes) : (encode bytes).length = textLen bytes.length := by
  simp [encode]

theorem encode_mem {bytes : Bytes} {c : Char} (h : c ∈ encode bytes) :
    ∃ d < 32, c = alphabet.getD d '0' := by
  rw [encode_eq] at h
  obtain ⟨index, -, rfl⟩ := List.mem_map.mp h
  exact ⟨_, Nat.mod_lt _ (by decide), rfl⟩

theorem encode_ascii {bytes : Bytes} : ∀ c ∈ encode bytes, c.toNat < 128 := by
  intro c hc
  obtain ⟨d, hd, rfl⟩ := encode_mem hc
  exact alphabet_ascii d hd

/-! ## Decoding -/

theorem bits_div_lt {n index : ℕ} (hn : 0 < n) (h : index < textLen n) : index * bits / 8 < n := by
  rw [textLen, bits] at h
  rw [bits]
  omega

/-- Or-ing a byte into a place that is clear from bit `s` on adds it. -/
private theorem value_orAt {n byte s a : ℕ} {bytes : Octets n} {x : UInt8} (hbyte : byte < n)
    (hclear : Numeral.value bytes.1 / 256 ^ byte % 256 < 2 ^ s) (hx : x.toNat = 2 ^ s * a) :
    Numeral.value (orAt bytes byte x).1 = Numeral.value bytes.1 + x.toNat * 256 ^ byte := by
  have hlen : byte < bytes.1.length := by rw [bytes.2]; exact hbyte
  refine Numeral.value_modify hlen (Numeral.toNat_or_of_lt ?_ hx)
  rwa [← Numeral.toNat_getD, List.getD_eq_getElem _ _ hlen] at hclear

private theorem shifted_low {s : ℕ} (d : ℕ) (hs : s < 8) :
    d * 2 ^ s % 256 = 2 ^ s * (d % 2 ^ (8 - s)) := by
  interval_cases s <;> omega

private theorem shifted_room {s : ℕ} (d : ℕ) (hs : s < 8) : d * 2 ^ s % 256 + 2 ^ s ≤ 256 := by
  interval_cases s <;> omega

private theorem shifted_high {d s : ℕ} (hd : d < 32) (hs : s < 8) : d * 2 ^ s / 256 < 256 := by
  interval_cases s <;> omega

/-- Digits are added from the least significant on, so the place a digit goes to is still clear and
or-ing it in adds it; only digits past the last byte overflow. -/
theorem value_decodeStep {n index d : ℕ} {bytes : Octets n} {character : UInt8}
    (hdigit : digit character = .ok (UInt8.ofNat d)) (hd : d < 32)
    (hplace : index * bits / 8 < n) (hlow : Numeral.value bytes.1 < 32 ^ index)
    (hfit : Numeral.value bytes.1 + d * 32 ^ index < 256 ^ n) :
    ∃ bytes', decodeStep bytes index character = .ok bytes'
      ∧ Numeral.value bytes'.1 = Numeral.value bytes.1 + d * 32 ^ index := by
  rw [pow_place] at hlow hfit ⊢
  rw [decodeStep, hdigit]
  simp only [bind, Except.bind, pure, Except.pure, throw, throwThe, MonadExceptOf.throw]
  generalize index * bits / 8 = byte at *
  have hshift : index * bits % 8 < 8 := Nat.mod_lt _ (by decide)
  generalize index * bits % 8 = shift at *
  set v := Numeral.value bytes.1 with hv
  have hx : (UInt8.ofNat d).toNat <<< shift = d * 2 ^ shift := by
    rw [UInt8.toNat_ofNat', Nat.mod_eq_of_lt (by omega), Nat.shiftLeft_eq]
  rw [hx, Nat.shiftRight_eq_div_pow, show 2 ^ 8 = 256 from rfl]
  -- the digit is or-ed over bits that are still zero, so the or is a sum
  have hclear : v / 256 ^ byte < 2 ^ shift := Nat.div_lt_of_lt_mul hlow
  have hlowByte : (UInt8.ofNat (d * 2 ^ shift)).toNat = d * 2 ^ shift % 256 := UInt8.toNat_ofNat'
  have hhighByte : (UInt8.ofNat (d * 2 ^ shift / 256)).toNat = d * 2 ^ shift / 256 := by
    rw [UInt8.toNat_ofNat', Nat.mod_eq_of_lt (shifted_high hd hshift)]
  have hfirst : Numeral.value (orAt bytes byte (UInt8.ofNat (d * 2 ^ shift))).1
      = v + d * 2 ^ shift % 256 * 256 ^ byte := by
    rw [← hlowByte]
    exact value_orAt hplace ((Nat.mod_le _ _).trans_lt hclear)
      (hlowByte.trans (shifted_low d hshift))
  by_cases hnext : byte + 1 < n
  · have hzero : Numeral.value (orAt bytes byte (UInt8.ofNat (d * 2 ^ shift))).1
        / 256 ^ (byte + 1) % 256 < 2 ^ 0 := by
      have hroom := shifted_room d hshift
      rw [hfirst, pow_succ, ← Nat.div_div_eq_div_mul,
        Nat.add_mul_div_right _ _ (Nat.pow_pos (by decide)), Nat.div_eq_of_lt (by omega)]
      decide
    refine ⟨_, if_pos hnext, ?_⟩
    rw [value_orAt hnext hzero (by rw [pow_zero, one_mul]), hfirst, hhighByte, pow_succ]
    calc v + d * 2 ^ shift % 256 * 256 ^ byte + d * 2 ^ shift / 256 * (256 ^ byte * 256)
        = v + (d * 2 ^ shift % 256 + 256 * (d * 2 ^ shift / 256)) * 256 ^ byte := by ring
      _ = v + d * (256 ^ byte * 2 ^ shift) := by rw [Nat.mod_add_div]; ring
  · -- at the last byte there is nothing to carry into, and the carry is zero
    have hlast : n = byte + 1 := by omega
    have hsmall : d * 2 ^ shift < 256 := by
      rw [hlast, pow_succ, Nat.mul_comm (256 ^ byte) 256] at hfit
      have : d * 2 ^ shift * 256 ^ byte < 256 * 256 ^ byte := by
        calc d * 2 ^ shift * 256 ^ byte = d * (256 ^ byte * 2 ^ shift) := by ring
          _ < 256 * 256 ^ byte := by omega
      exact Nat.lt_of_mul_lt_mul_right this
    have hhigh : UInt8.ofNat (d * 2 ^ shift / 256) = 0 := by
      rw [Nat.div_eq_of_lt hsmall]
      rfl
    refine ⟨_, by rw [if_neg hnext, if_pos hhigh], ?_⟩
    rw [hfirst, Nat.mod_eq_of_lt hsmall]
    ring

/-- The digits of `v` from number `index` on, added to what the digits before them spell. -/
private theorem decodeFrom_digits {n v : ℕ} (hn : 0 < n) (hv : v < 256 ^ n) (count : ℕ) :
    ∀ (index : ℕ) (bytes : Octets n), index + count ≤ textLen n →
      Numeral.value bytes.1 = v % 32 ^ index →
      ∃ bytes', decodeFrom index bytes ((List.range' index count).map fun i ↦
          (alphabet.getD (v / 32 ^ i % 32) '0').toUInt8) = .ok bytes'
        ∧ Numeral.value bytes'.1 = v % 32 ^ (index + count) := by
  induction count with
  | zero => exact fun index bytes _ hbytes ↦ ⟨bytes, rfl, hbytes⟩
  | succ count ih =>
    intro index bytes hlen hbytes
    have hd : v / 32 ^ index % 32 < 32 := Nat.mod_lt _ (by decide)
    have hsum : Numeral.value bytes.1 + v / 32 ^ index % 32 * 32 ^ index
        = v % 32 ^ (index + 1) := by
      rw [hbytes, Nat.mod_pow_succ, Nat.mul_comm (32 ^ index)]
    obtain ⟨next, hstep, hnext⟩ := value_decodeStep (digit_alphabet _ hd) hd
      (bits_div_lt hn (by omega)) (hbytes ▸ Nat.mod_lt _ (Nat.pow_pos (by decide)))
      (hsum ▸ (Nat.mod_le _ _).trans_lt hv)
    obtain ⟨bytes', hrest, hvalue⟩ := ih (index + 1) next (by omega) (hnext.trans hsum)
    refine ⟨bytes', ?_, by rw [hvalue, Nat.add_right_comm, Nat.add_assoc]⟩
    rw [List.range'_succ, List.map_cons, decodeFrom, hstep]
    exact hrest

theorem pow_textLen {n : ℕ} (hn : 0 < n) : 256 ^ n ≤ 32 ^ textLen n := by
  rw [show 256 = 2 ^ 8 from rfl, show 32 = 2 ^ 5 from rfl, ← pow_mul, ← pow_mul]
  refine Nat.pow_le_pow_right (by decide) ?_
  rw [textLen, bits]
  omega

theorem byteLen_encode (bytes : Bytes) : Text.byteLen (encode bytes) = textLen bytes.length := by
  rw [Text.byteLen_of_ascii encode_ascii, length_encode]

theorem decode_encode {n : ℕ} (hn : 0 < n) (bytes : Octets n) :
    decode n (encode bytes.1) = .ok bytes := by
  have hchars : (Text.utf8 (encode bytes.1)).reverse
      = (List.range' 0 (textLen n)).map fun i ↦
        (alphabet.getD (Numeral.value bytes.1 / 32 ^ i % 32) '0').toUInt8 := by
    rw [Text.utf8_of_ascii encode_ascii, encode_eq, bytes.2, List.map_map, List.map_reverse,
      List.reverse_reverse, List.range_eq_range']
    rfl
  have hv : Numeral.value bytes.1 < 256 ^ n := by
    have := Numeral.value_lt bytes.1
    rwa [bytes.2] at this
  obtain ⟨bytes', hdecode, hvalue⟩ := decodeFrom_digits hn hv (textLen n) 0
    (List.Vector.replicate n 0) (by omega) (by
      rw [pow_zero, Nat.mod_one]
      exact Numeral.value_replicate_zero n)
  have hsame : Numeral.value bytes'.1 = Numeral.value bytes.1 := by
    rw [hvalue, Nat.zero_add, Nat.mod_eq_of_lt (hv.trans_le (pow_textLen hn))]
  have hbytes : bytes' = bytes :=
    Subtype.ext (Numeral.eq_of_value_eq (bytes'.2.trans bytes.2.symm) hsame)
  rw [decode, if_pos (by rw [byteLen_encode, bytes.2]), hchars, hdecode, hbytes]

theorem encode_injective {n : ℕ} (hn : 0 < n) {a b : Octets n} (h : encode a.1 = encode b.1) :
    a = b := by
  have := decode_encode hn a
  rw [h, decode_encode hn] at this
  exact (Except.ok.inj this).symm

/-! ## Canonical texts -/

/-- The text of a numeral, most significant digit first. -/
def spell (digits : List ℕ) : Text := digits.reverse.map (alphabet.getD · '0')

/-- The text is the base-32 numeral of a number: its digits, from the most significant on. -/
def Spells (text : Text) (v : ℕ) : Prop :=
  ∃ digits, (∀ d ∈ digits, d < 32) ∧ Nat.ofDigits 32 digits = v ∧ text = spell digits

theorem alphabet_of_digit {character d : UInt8} (h : digit character = .ok d) :
    d.toNat < 32 ∧ (alphabet.getD d.toNat '0').toUInt8 = character := by
  have hall : ∀ n < 256, (digit (UInt8.ofNat n)).toOption.all fun d ↦
      d.toNat < 32 ∧ (alphabet.getD d.toNat '0').toUInt8 = UInt8.ofNat n := by
    decide +kernel
  have hcharacter := hall character.toNat character.toNat_lt
  rw [UInt8.ofNat_toNat, h] at hcharacter
  exact of_decide_eq_true hcharacter

theorem fits_of_decodeStep {n index d : ℕ} {bytes bytes' : Octets n} {character : UInt8}
    (hdigit : digit character = .ok (UInt8.ofNat d)) (hd : d < 32)
    (hplace : index * bits / 8 < n) (hlow : Numeral.value bytes.1 < 32 ^ index)
    (h : decodeStep bytes index character = .ok bytes') :
    Numeral.value bytes.1 + d * 32 ^ index < 256 ^ n := by
  rw [pow_place] at hlow ⊢
  rw [decodeStep, hdigit] at h
  simp only [bind, Except.bind, pure, Except.pure, throw, throwThe, MonadExceptOf.throw] at h
  generalize index * bits / 8 = byte at *
  have hshift : index * bits % 8 < 8 := Nat.mod_lt _ (by decide)
  generalize index * bits % 8 = shift at *
  have hx : (UInt8.ofNat d).toNat <<< shift = d * 2 ^ shift := by
    rw [UInt8.toNat_ofNat', Nat.mod_eq_of_lt (by omega), Nat.shiftLeft_eq]
  rw [hx, Nat.shiftRight_eq_div_pow, show 2 ^ 8 = 256 from rfl] at h
  have hsum : Numeral.value bytes.1 + d * (256 ^ byte * 2 ^ shift)
      < (d * 2 ^ shift + 2 ^ shift) * 256 ^ byte := by
    calc Numeral.value bytes.1 + d * (256 ^ byte * 2 ^ shift)
        < 256 ^ byte * 2 ^ shift + d * (256 ^ byte * 2 ^ shift) := by omega
      _ = (d * 2 ^ shift + 2 ^ shift) * 256 ^ byte := by ring
  by_cases hnext : byte + 1 < n
  · have hroom : d * 2 ^ shift + 2 ^ shift ≤ 256 ^ 2 := by interval_cases shift <;> omega
    calc Numeral.value bytes.1 + d * (256 ^ byte * 2 ^ shift)
        < (d * 2 ^ shift + 2 ^ shift) * 256 ^ byte := hsum
      _ ≤ 256 ^ 2 * 256 ^ byte := Nat.mul_le_mul_right _ hroom
      _ = 256 ^ (byte + 2) := by ring
      _ ≤ 256 ^ n := Nat.pow_le_pow_right (by decide) (by omega)
  · rw [if_neg hnext] at h
    have hhigh : UInt8.ofNat (d * 2 ^ shift / 256) = 0 := by
      by_contra hne
      rw [if_neg hne] at h
      exact absurd h (by simp)
    -- Nothing of the digit is past the last byte, so it fills that byte at most.
    have hzero : d * 2 ^ shift / 256 = 0 := by
      have hlt : d * 2 ^ shift / 256 < 256 := shifted_high hd hshift
      have := congrArg UInt8.toNat hhigh
      rwa [UInt8.toNat_ofNat', Nat.mod_eq_of_lt hlt] at this
    have hroom : d * 2 ^ shift + 2 ^ shift ≤ 256 := by
      have := shifted_room d hshift
      rwa [Nat.mod_eq_of_lt (by omega)] at this
    calc Numeral.value bytes.1 + d * (256 ^ byte * 2 ^ shift)
        < (d * 2 ^ shift + 2 ^ shift) * 256 ^ byte := hsum
      _ ≤ 256 * 256 ^ byte := Nat.mul_le_mul_right _ hroom
      _ = 256 ^ (byte + 1) := by ring
      _ ≤ 256 ^ n := Nat.pow_le_pow_right (by decide) (by omega)

/-- What was decoded from digit number `index` on, as a numeral. -/
theorem digits_of_decodeFrom {n : ℕ} (hn : 0 < n) (characters : Bytes) :
    ∀ (index : ℕ) (bytes bytes' : Octets n), index + characters.length ≤ textLen n →
      Numeral.value bytes.1 < 32 ^ index → decodeFrom index bytes characters = .ok bytes' →
      ∃ digits : List ℕ, (∀ d ∈ digits, d < 32)
        ∧ characters = digits.map (fun d ↦ (alphabet.getD d '0').toUInt8)
        ∧ Numeral.value bytes'.1 = Numeral.value bytes.1 + 32 ^ index * Nat.ofDigits 32 digits := by
  induction characters with
  | nil =>
    rintro index bytes bytes' - - h
    obtain rfl := Except.ok.inj h
    exact ⟨[], by simp, rfl, by simp⟩
  | cons character characters ih =>
    intro index bytes bytes' hlen hlow h
    rw [List.length_cons] at hlen
    rw [decodeFrom] at h
    cases hstep : decodeStep bytes index character with
    | error error =>
      rw [hstep] at h
      exact absurd h (by simp [bind, Except.bind])
    | ok next =>
      rw [hstep] at h
      obtain ⟨d, hdigit⟩ : ∃ d, digit character = .ok d := by
        cases hdigit : digit character with
        | ok d => exact ⟨d, rfl⟩
        | error error =>
          rw [decodeStep, hdigit] at hstep
          exact absurd hstep (by simp [bind, Except.bind])
      obtain ⟨hd, hcharacter⟩ := alphabet_of_digit hdigit
      rw [← UInt8.ofNat_toNat (x := d)] at hdigit
      have hplace := bits_div_lt hn (show index < textLen n by omega)
      have hfit := fits_of_decodeStep hdigit hd hplace hlow hstep
      obtain ⟨next', hstep', hnext⟩ := value_decodeStep hdigit hd hplace hlow hfit
      obtain rfl := Except.ok.inj (hstep.symm.trans hstep')
      have hlow' : Numeral.value next.1 < 32 ^ (index + 1) := by
        rw [hnext, pow_succ]
        nlinarith
      obtain ⟨digits, hdigits, rfl, hvalue⟩ := ih (index + 1) next bytes' (by omega) hlow' h
      refine ⟨d.toNat :: digits, ?_, by rw [List.map_cons, hcharacter], ?_⟩
      · rw [List.forall_mem_cons]
        exact ⟨hd, hdigits⟩
      · rw [hvalue, hnext, Nat.ofDigits_cons, pow_succ]
        ring

private theorem ofDigits_range (v count : ℕ) :
    Nat.ofDigits 32 ((List.range count).map fun i ↦ v / 32 ^ i % 32) = v % 32 ^ count := by
  induction count with
  | zero => rw [List.range_zero, List.map_nil, Nat.ofDigits_nil, pow_zero, Nat.mod_one]
  | succ count ih =>
    rw [List.range_succ, List.map_append, Nat.ofDigits_append, ih, List.map_singleton,
      Nat.ofDigits_singleton, List.length_map, List.length_range, Nat.mod_pow_succ]

private theorem exists_digits {n : ℕ} (hn : 0 < n) (bytes : Octets n) :
    ∃ digits : List ℕ, digits.length = textLen n ∧ (∀ d ∈ digits, d < 32)
      ∧ Nat.ofDigits 32 digits = Numeral.value bytes.1 ∧ encode bytes.1 = spell digits := by
  have hv : Numeral.value bytes.1 < 32 ^ textLen n := by
    have hlt := Numeral.value_lt bytes.1
    rw [bytes.2] at hlt
    exact hlt.trans_le (pow_textLen hn)
  refine ⟨(List.range (textLen n)).map fun i ↦ Numeral.value bytes.1 / 32 ^ i % 32, ?_, ?_, ?_, ?_⟩
  · rw [List.length_map, List.length_range]
  · intro d hd
    obtain ⟨i, -, rfl⟩ := List.mem_map.mp hd
    exact Nat.mod_lt _ (by decide)
  · rw [ofDigits_range, Nat.mod_eq_of_lt hv]
  · rw [encode_eq, spell, ← List.map_reverse, List.map_map, bytes.2]
    rfl

theorem spells_encode {n : ℕ} (hn : 0 < n) (bytes : Octets n) :
    Spells (encode bytes.1) (Numeral.value bytes.1) := by
  obtain ⟨digits, -, hdigits, hvalue, htext⟩ := exists_digits hn bytes
  exact ⟨digits, hdigits, hvalue, htext⟩

theorem utf8_spell {digits : List ℕ} (h : ∀ d ∈ digits, d < 32) :
    Text.utf8 (spell digits) = (digits.map fun d ↦ (alphabet.getD d '0').toUInt8).reverse := by
  rw [Text.utf8_of_ascii, spell, List.map_map, List.map_reverse]
  · rfl
  · intro c hc
    obtain ⟨d, hd, rfl⟩ := List.mem_map.mp hc
    exact alphabet_ascii d (h d (List.mem_reverse.mp hd))

/-- What decodes was encoded: there is one text for every byte string. -/
theorem encode_of_decode {n : ℕ} (hn : 0 < n) {text : Text} {bytes : Octets n}
    (h : decode n text = .ok bytes) : encode bytes.1 = text := by
  rw [decode] at h
  split at h
  · next hlen =>
    have hcount : 0 + (Text.utf8 text).reverse.length ≤ textLen n := by
      rw [Nat.zero_add, List.length_reverse, ← hlen, Text.byteLen]
    obtain ⟨digits, hdigits, hchars, hvalue⟩ := digits_of_decodeFrom hn _ 0 _ _ hcount
      (by rw [pow_zero, show Numeral.value (List.Vector.replicate n (0 : UInt8)).1 = 0 from
        Numeral.value_replicate_zero n]; decide) h
    have htext : text = spell digits := by
      refine Text.utf8_injective ?_
      rw [utf8_spell hdigits, ← hchars, List.reverse_reverse]
    have hlength : digits.length = textLen n := by
      have hcounts := congrArg List.length hchars
      rw [List.length_reverse, List.length_map] at hcounts
      exact hcounts.symm.trans hlen
    have hsum : Numeral.value bytes.1 = Nat.ofDigits 32 digits := by
      rw [hvalue, pow_zero, one_mul, show Numeral.value
        (List.Vector.replicate n (0 : UInt8)).1 = 0 from Numeral.value_replicate_zero n, zero_add]
    obtain ⟨digits', hlength', hdigits', hvalue', hencode⟩ := exists_digits hn bytes
    have hsame : digits' = digits := Nat.ofDigits_inj_of_len_eq (by decide)
      (hlength'.trans hlength.symm) hdigits' hdigits (hvalue'.trans hsum)
    rw [hencode, hsame, htext]
  · exact absurd h (by simp)

theorem exists_digits_of_alphabet {text : Text} (h : ∀ c ∈ text, c ∈ alphabet) :
    ∃ digits, (∀ d ∈ digits, d < 32) ∧ digits.length = text.length ∧ text = spell digits := by
  induction text with
  | nil => exact ⟨[], List.forall_mem_nil _, rfl, rfl⟩
  | cons c text ih =>
    obtain ⟨hc, htext⟩ := List.forall_mem_cons.mp h
    obtain ⟨digits, hdigits, hlength, hspell⟩ := ih htext
    obtain ⟨d, hd, hget⟩ := List.mem_iff_getElem.mp hc
    refine ⟨digits ++ [d], ?_, by simp [hlength], ?_⟩
    · intro e he
      obtain he | he := List.mem_append.mp he
      · exact hdigits e he
      · obtain rfl := List.mem_singleton.mp he
        exact hd
    · rw [spell, List.reverse_append, List.reverse_singleton, List.singleton_append, List.map_cons,
        List.getD_eq_getElem _ _ hd, hget]
      exact congrArg (c :: ·) hspell

/-- Where the digits of a width have no bit to spare, every text over the alphabet encodes some
bytes. -/
theorem exists_encode {n : ℕ} (hn : 0 < n) (hfull : 32 ^ textLen n = 256 ^ n) {text : Text}
    (hlength : text.length = textLen n) (h : ∀ c ∈ text, c ∈ alphabet) :
    ∃ bytes : Octets n, encode bytes.1 = text := by
  obtain ⟨digits, hdigits, hcount, rfl⟩ := exists_digits_of_alphabet h
  rw [hlength] at hcount
  have hv : Nat.ofDigits 32 digits < 256 ^ n := by
    rw [← hfull, ← hcount]
    exact Nat.ofDigits_lt_base_pow_length (by decide) hdigits
  obtain ⟨bytes, -, hvalue⟩ := decodeFrom_digits hn hv (textLen n) 0 (List.Vector.replicate n 0)
    (by omega) (by
      rw [pow_zero, Nat.mod_one]
      exact Numeral.value_replicate_zero n)
  rw [Nat.zero_add, Nat.mod_eq_of_lt (hfull ▸ hv)] at hvalue
  obtain ⟨digits', hcount', hdigits', hvalue', hencode⟩ := exists_digits hn bytes
  have hsame : digits' = digits := Nat.ofDigits_inj_of_len_eq (by decide)
    (hcount'.trans hcount.symm) hdigits' hdigits (hvalue'.trans hvalue)
  exact ⟨bytes, by rw [hencode, hsame]⟩

/-- Every index is in range, and the sixteen bits a digit is shifted in hold all of it. -/
structure InBounds (n : ℕ) : Prop where
  byte : ∀ index < textLen n, index * bits / 8 < n
  alphabet : ∀ bytes index, window bytes index &&& 0x1f < alphabet.length
  letter : ∀ character : UInt8, 97 ≤ character → character ≤ 122 →
    (character - 97).toNat < letters.length
  shift : ∀ character d index, digit character = .ok d → d.toNat <<< (index * bits % 8) < 2 ^ 16

theorem inBounds {n : ℕ} (hn : 0 < n) : InBounds n := by
  refine ⟨fun index ↦ bits_div_lt hn, fun bytes index ↦ ?_, fun character hlow hhigh ↦ ?_,
    fun character d index h ↦ ?_⟩
  · rw [and_eq_mod]
    exact Nat.mod_lt _ (by decide)
  · rw [UInt8.le_iff_toNat_le] at hlow hhigh
    have hsub : (character - 97).toNat = character.toNat - 97 :=
      UInt8.toNat_sub_of_le _ _ (UInt8.le_iff_toNat_le.mpr hlow)
    rw [hsub]
    change character.toNat - 97 < 26
    have : character.toNat ≤ 122 := hhigh
    omega
  · obtain ⟨hd, -⟩ := alphabet_of_digit h
    have hshift : index * bits % 8 < 8 := Nat.mod_lt _ (by decide)
    rw [Nat.shiftLeft_eq]
    calc d.toNat * 2 ^ (index * bits % 8) < 32 * 2 ^ 8 :=
          Nat.mul_lt_mul_of_lt_of_le hd (Nat.pow_le_pow_right (by decide) hshift.le) (by decide)
      _ ≤ 2 ^ 16 := by decide

/-- The codec is a bijection onto its canonical texts. -/
theorem canonical {n : ℕ} (hn : 0 < n) :
    (∀ bytes : Octets n, (encode bytes.1).length = textLen n
      ∧ Spells (encode bytes.1) (Numeral.value bytes.1) ∧ decode n (encode bytes.1) = .ok bytes)
      ∧ (∀ text (bytes : Octets n), decode n text = .ok bytes → encode bytes.1 = text)
      ∧ InBounds n := by
  refine ⟨fun bytes ↦ ⟨?_, spells_encode hn bytes, decode_encode hn bytes⟩,
    fun text bytes ↦ encode_of_decode hn, inBounds hn⟩
  rw [length_encode, bytes.2]

/-- At the width of a store path hash. -/
theorem canonical_hash :
    (∀ bytes : Octets 20, (encode bytes.1).length = 32
      ∧ Spells (encode bytes.1) (Numeral.value bytes.1) ∧ decode 20 (encode bytes.1) = .ok bytes)
      ∧ (∀ text (bytes : Octets 20), decode 20 text = .ok bytes → encode bytes.1 = text)
      ∧ InBounds 20 := canonical (by decide)

end Base32

end Bincache
