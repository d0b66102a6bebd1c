import Bincache.Lib.Text

/-!
# Hexadecimal

Two digits for each byte, the high one first. The encoder writes lowercase; the decoder reads either
case, also mixed, so a byte string has many spellings.
-/

namespace Hex

def alphabet : Text := "0123456789abcdef".toList

def digit (n : ℕ) : Char := alphabet.getD n '0'

/-- What a byte counts as a digit. -/
def value (byte : UInt8) : Option ℕ :=
  let n := byte.toNat
  if 48 ≤ n ∧ n ≤ 57 then some (n - 48)
  else if 97 ≤ n ∧ n ≤ 102 then some (n - 87)
  else if 65 ≤ n ∧ n ≤ 70 then some (n - 55)
  else none

def encode (bytes : Bytes) : Text :=
  bytes.flatMap fun byte ↦ [digit (byte.toNat / 16), digit (byte.toNat % 16)]

def decode : Bytes → Option Bytes
  | [] => some []
  | [_] => none
  | x :: y :: bytes => do
    let high ← value x
    let low ← value y
    let rest ← decode bytes
    some (UInt8.ofNat (high * 16 + low) :: rest)

/-- The text is the hexadecimal of the bytes, in any mixture of cases. -/
def Spells (bytes : Bytes) (text : Text) : Prop := text.map Char.toLower = encode bytes

instance (bytes : Bytes) (text : Text) : Decidable (Spells bytes text) :=
  inferInstanceAs (Decidable (_ = _))

/-! ## Digits -/

private theorem toNat_digit : ∀ n < 16, (digit n).toNat = if n < 10 then 48 + n else 87 + n := by
  decide

private theorem toNat_of_toLower {c : Char} {n : ℕ} (hn : n < 16) (h : c.toLower = digit n) :
    c.toNat = 48 + n ∧ n < 10 ∨ c.toNat = 87 + n ∧ 10 ≤ n ∨ c.toNat = 55 + n ∧ 10 ≤ n := by
  have hdigit := toNat_digit n hn
  rw [← h] at hdigit
  by_cases hupper : c.val ≥ 'A'.val ∧ c.val ≤ 'Z'.val
  · -- an uppercase letter is 32 below the letter it becomes
    have hlow : 65 ≤ c.toNat := UInt32.le_iff_toNat_le.mp hupper.1
    have hhigh : c.toNat ≤ 90 := UInt32.le_iff_toNat_le.mp hupper.2
    have hsum : c.toLower.toNat = (c.toNat + 32) % 2 ^ 32 :=
      (congrArg Char.toNat (dif_pos hupper)).trans (UInt32.toNat_add _ _)
    rw [hsum] at hdigit
    split at hdigit <;> omega
  · have hlower : c.toLower = c := dif_neg hupper
    rw [hlower] at hdigit
    split at hdigit <;> omega

theorem ascii_of_toLower {c : Char} {n : ℕ} (hn : n < 16) (h : c.toLower = digit n) :
    c.toNat < 128 := by
  have := toNat_of_toLower hn h
  omega

theorem value_of_toLower {c : Char} {n : ℕ} (hn : n < 16) (h : c.toLower = digit n) :
    value c.toUInt8 = some n := by
  have hcode := toNat_of_toLower hn h
  have hascii := ascii_of_toLower hn h
  have hbyte : c.toUInt8.toNat = c.toNat := Nat.mod_eq_of_lt (hascii.trans (by decide))
  rw [value, hbyte]
  obtain ⟨hc, hn⟩ | ⟨hc, hn⟩ | ⟨hc, hn⟩ := hcode
  · rw [if_pos (by omega), hc, Nat.add_sub_cancel_left]
  · rw [if_neg (by omega), if_pos (by omega), hc, Nat.add_sub_cancel_left]
  · rw [if_neg (by omega), if_neg (by omega), if_pos (by omega), hc, Nat.add_sub_cancel_left]

/-! ## Spellings -/

theorem encode_cons (byte : UInt8) (bytes : Bytes) :
    encode (byte :: bytes)
      = digit (byte.toNat / 16) :: digit (byte.toNat % 16) :: encode bytes := rfl

theorem length_encode (bytes : Bytes) : (encode bytes).length = bytes.length * 2 := by
  induction bytes with
  | nil => rfl
  | cons byte bytes ih =>
    rw [encode_cons, List.length_cons, List.length_cons, List.length_cons, ih]
    omega

variable {byte : UInt8} {bytes : Bytes} {text : Text}

theorem Spells.length (h : Spells bytes text) : text.length = bytes.length * 2 := by
  rw [← length_encode, ← h, List.length_map]

theorem Spells.exists_cons (h : Spells (byte :: bytes) text) : ∃ x y rest, text = x :: y :: rest
    ∧ x.toLower = digit (byte.toNat / 16) ∧ y.toLower = digit (byte.toNat % 16)
    ∧ Spells bytes rest := by
  rw [Spells, encode_cons, List.map_eq_cons_iff] at h
  obtain ⟨x, text, rfl, hx, h⟩ := h
  obtain ⟨y, rest, rfl, hy, h⟩ := List.map_eq_cons_iff.mp h
  exact ⟨x, y, rest, rfl, hx, hy, h⟩

theorem Spells.toLower_mem (h : Spells bytes text) {c : Char} (hc : c ∈ text) :
    ∃ n < 16, c.toLower = digit n := by
  induction bytes generalizing text with
  | nil => exact absurd hc (List.map_eq_nil_iff.mp h ▸ List.not_mem_nil)
  | cons byte bytes ih =>
    have := byte.toNat_lt
    obtain ⟨x, y, rest, rfl, hx, hy, hrest⟩ := h.exists_cons
    obtain rfl | hc := List.mem_cons.mp hc
    · exact ⟨_, by omega, hx⟩
    obtain rfl | hc := List.mem_cons.mp hc
    · exact ⟨_, by omega, hy⟩
    · exact ih hrest hc

theorem Spells.ascii (h : Spells bytes text) : ∀ c ∈ text, c.toNat < 128 := by
  intro c hc
  obtain ⟨n, hn, hlower⟩ := h.toLower_mem hc
  exact ascii_of_toLower hn hlower

theorem decode_of_spells (h : Spells bytes text) : decode (Text.utf8 text) = some bytes := by
  rw [Text.utf8_of_ascii h.ascii]
  induction bytes generalizing text with
  | nil => rw [List.map_eq_nil_iff.mp h, List.map_nil, decode]
  | cons byte bytes ih =>
    have := byte.toNat_lt
    obtain ⟨x, y, rest, rfl, hx, hy, hrest⟩ := h.exists_cons
    have hbyte : byte.toNat / 16 * 16 + byte.toNat % 16 = byte.toNat := by omega
    rw [List.map_cons, List.map_cons, decode, value_of_toLower (by omega) hx,
      value_of_toLower (by omega) hy, ih hrest]
    dsimp only [Option.bind_eq_bind, Option.bind_some]
    rw [hbyte, UInt8.ofNat_toNat]

end Hex
