import Bincache.Lib.Text
import Mathlib.Data.List.GetD

/-!
# Base64

The standard alphabet with padding. Three bytes become four characters; a last group of one or two
bytes is padded. The decoder takes canonical text only: the bits that padding stands for are zero,
and padding ends the text. A decoder may be more generous than that and go on after a padded group,
as with several texts one behind the other; a text that this one takes it decodes to the same bytes.
-/

namespace Base64

def alphabet : Text :=
  "ABCDEFGHIJKLMNOPQRSTUVWXYZabcdefghijklmnopqrstuvwxyz0123456789+/".toList

def digit (n : ℕ) : Char := alphabet.getD n 'A'

/-- What a byte counts as a digit. -/
def value (byte : UInt8) : Option ℕ :=
  let n := byte.toNat
  if 65 ≤ n ∧ n ≤ 90 then some (n - 65)
  else if 97 ≤ n ∧ n ≤ 122 then some (n - 71)
  else if 48 ≤ n ∧ n ≤ 57 then some (n + 4)
  else if n = 43 then some 62
  else if n = 47 then some 63
  else none

/-- The two digits of a last group of one byte. -/
def tail₁ (a : UInt8) : Text := [digit (a.toNat / 4), digit (a.toNat % 4 * 16)]

/-- The three digits of a last group of two. -/
def tail₂ (a b : UInt8) : Text :=
  [digit (a.toNat / 4), digit (a.toNat % 4 * 16 + b.toNat / 16), digit (b.toNat % 16 * 4)]

def group (a b c : UInt8) : Text :=
  [digit (a.toNat / 4), digit (a.toNat % 4 * 16 + b.toNat / 16),
    digit (b.toNat % 16 * 4 + c.toNat / 64), digit (c.toNat % 64)]

def encode : Bytes → Text
  | [] => []
  | [a] => tail₁ a ++ ['=', '=']
  | [a, b] => tail₂ a b ++ ['=']
  | a :: b :: c :: bytes => group a b c ++ encode bytes

def pad : UInt8 := 61

/-- The bytes of a last group. -/
def decodeLast (w x y z : UInt8) : Option Bytes := do
  let a ← value w
  let b ← value x
  if y = pad then
    if z = pad ∧ b % 16 = 0 then some [UInt8.ofNat (a * 4 + b / 16)] else none
  else do
    let c ← value y
    if z = pad then
      if c % 4 = 0 then some [UInt8.ofNat (a * 4 + b / 16), UInt8.ofNat (b % 16 * 16 + c / 4)]
      else none
    else do
      let d ← value z
      some [UInt8.ofNat (a * 4 + b / 16), UInt8.ofNat (b % 16 * 16 + c / 4),
        UInt8.ofNat (c % 4 * 64 + d)]

def decode : Bytes → Option Bytes
  | [] => some []
  | [w, x, y, z] => decodeLast w x y z
  | w :: x :: y :: z :: bytes => do
    let a ← value w
    let b ← value x
    let c ← value y
    let d ← value z
    let rest ← decode bytes
    some (UInt8.ofNat (a * 4 + b / 16) :: UInt8.ofNat (b % 16 * 16 + c / 4)
      :: UInt8.ofNat (c % 4 * 64 + d) :: rest)
  | _ => none

/-! ## Digits -/

private theorem digit_facts : ∀ n < 64, (digit n).toNat < 128
    ∧ value (digit n).toUInt8 = some n ∧ (digit n).toUInt8 ≠ pad := by
  decide +kernel

theorem value_digit {n : ℕ} (h : n < 64) : value (digit n).toUInt8 = some n := (digit_facts n h).2.1

theorem digit_ne_pad {n : ℕ} (h : n < 64) : (digit n).toUInt8 ≠ pad := (digit_facts n h).2.2

theorem digit_mem_alphabet (n : ℕ) : digit n ∈ alphabet := by
  rw [digit]
  by_cases h : n < alphabet.length
  · rw [List.getD_eq_getElem _ _ h]
    exact List.getElem_mem h
  · rw [List.getD_eq_default _ _ (Nat.le_of_not_lt h)]
    decide

theorem mem_encode {bytes : Bytes} {c : Char} (h : c ∈ encode bytes) : c ∈ '=' :: alphabet := by
  have hdigit : ∀ n, digit n ∈ '=' :: alphabet :=
    fun n ↦ List.mem_cons_of_mem _ (digit_mem_alphabet n)
  have hpad : '=' ∈ '=' :: alphabet := List.mem_cons_self
  fun_induction encode bytes with
  | case1 => exact absurd h List.not_mem_nil
  | case2 a =>
    simp only [tail₁, List.cons_append, List.nil_append, List.mem_cons, List.not_mem_nil,
      or_false] at h
    obtain rfl | rfl | rfl | rfl := h
    exacts [hdigit _, hdigit _, hpad, hpad]
  | case3 a b =>
    simp only [tail₂, List.cons_append, List.nil_append, List.mem_cons, List.not_mem_nil,
      or_false] at h
    obtain rfl | rfl | rfl | rfl := h
    exacts [hdigit _, hdigit _, hdigit _, hpad]
  | case4 a b c bytes ih =>
    obtain h | h := List.mem_append.mp h
    · simp only [group, List.mem_cons, List.not_mem_nil, or_false] at h
      obtain rfl | rfl | rfl | rfl := h
      exacts [hdigit _, hdigit _, hdigit _, hdigit _]
    · exact ih h

/-- Every group of three bytes, also one that is cut short, takes four characters. -/
theorem length_encode (bytes : Bytes) : (encode bytes).length = (bytes.length + 2) / 3 * 4 := by
  fun_induction encode bytes with
  | case1 => rfl
  | case2 a => simp [tail₁]
  | case3 a b => simp [tail₂]
  | case4 a b c bytes ih =>
    rw [List.length_append, ih]
    simp only [group, List.length_cons, List.length_nil]
    omega

theorem utf8_encode (bytes : Bytes) :
    Text.utf8 (encode bytes) = (encode bytes).map Char.toUInt8 := by
  refine Text.utf8_of_ascii fun c hc ↦ ?_
  have hall : ('=' :: alphabet).all (fun c ↦ decide (c.toNat < 128)) = true := by decide
  exact of_decide_eq_true (List.all_eq_true.mp hall c (mem_encode hc))

/-! ## Decoding what was encoded -/

private theorem first_byte (a b : UInt8) :
    UInt8.ofNat (a.toNat / 4 * 4 + (a.toNat % 4 * 16 + b.toNat / 16) / 16) = a := by
  have ha := a.toNat_lt
  have hb := b.toNat_lt
  have : a.toNat / 4 * 4 + (a.toNat % 4 * 16 + b.toNat / 16) / 16 = a.toNat := by omega
  rw [this, UInt8.ofNat_toNat]

private theorem second_byte (a b c : UInt8) :
    UInt8.ofNat ((a.toNat % 4 * 16 + b.toNat / 16) % 16 * 16
      + (b.toNat % 16 * 4 + c.toNat / 64) / 4) = b := by
  have hb := b.toNat_lt
  have hc := c.toNat_lt
  have : (a.toNat % 4 * 16 + b.toNat / 16) % 16 * 16 + (b.toNat % 16 * 4 + c.toNat / 64) / 4
      = b.toNat := by omega
  rw [this, UInt8.ofNat_toNat]

private theorem third_byte (b c : UInt8) :
    UInt8.ofNat ((b.toNat % 16 * 4 + c.toNat / 64) % 4 * 64 + c.toNat % 64) = c := by
  have hc := c.toNat_lt
  have : (b.toNat % 16 * 4 + c.toNat / 64) % 4 * 64 + c.toNat % 64 = c.toNat := by omega
  rw [this, UInt8.ofNat_toNat]

private theorem decode_group (a b c : UInt8) (bytes : Bytes) :
    decode ((group a b c).map Char.toUInt8 ++ bytes) = (decode bytes).map (a :: b :: c :: ·) := by
  have ha := a.toNat_lt
  have hb := b.toNat_lt
  have hc := c.toNat_lt
  have h₁ := @value_digit (a.toNat / 4) (by omega)
  have h₂ := @value_digit (a.toNat % 4 * 16 + b.toNat / 16) (by omega)
  have h₃ := @value_digit (b.toNat % 16 * 4 + c.toNat / 64) (by omega)
  have h₄ := @value_digit (c.toNat % 64) (by omega)
  have hthird := @digit_ne_pad (b.toNat % 16 * 4 + c.toNat / 64) (by omega)
  have hfourth := @digit_ne_pad (c.toNat % 64) (by omega)
  rw [group, List.map_cons, List.map_cons, List.map_cons, List.map_cons, List.map_nil]
  rcases bytes with _ | ⟨byte, bytes⟩
  · change decodeLast _ _ _ _ = _
    rw [decodeLast, h₁, h₂]
    dsimp only [Option.bind_eq_bind, Option.bind_some]
    rw [if_neg hthird, h₃]
    dsimp only [Option.bind_some]
    rw [if_neg hfourth, h₄]
    dsimp only [Option.bind_some]
    rw [first_byte, second_byte, third_byte]
    rfl
  · simp only [List.cons_append, List.nil_append, decode, h₁, h₂, h₃, h₄, Option.bind_eq_bind,
      Option.bind_some, first_byte, second_byte, third_byte]
    cases decode (byte :: bytes) <;> rfl

theorem decode_encode (bytes : Bytes) : decode (Text.utf8 (encode bytes)) = some bytes := by
  rw [utf8_encode]
  fun_induction encode bytes with
  | case1 => rfl
  | case2 a =>
    have ha := a.toNat_lt
    have h₁ := @value_digit (a.toNat / 4) (by omega)
    have h₂ := @value_digit (a.toNat % 4 * 16) (by omega)
    have hfirst := first_byte a 0
    rw [show (0 : UInt8).toNat / 16 = 0 from rfl, Nat.add_zero] at hfirst
    change decodeLast _ _ pad pad = _
    rw [decodeLast, h₁, h₂]
    dsimp only [Option.bind_eq_bind, Option.bind_some]
    rw [if_pos rfl, if_pos ⟨rfl, by omega⟩, hfirst]
  | case3 a b =>
    have ha := a.toNat_lt
    have hb := b.toNat_lt
    have h₁ := @value_digit (a.toNat / 4) (by omega)
    have h₂ := @value_digit (a.toNat % 4 * 16 + b.toNat / 16) (by omega)
    have h₃ := @value_digit (b.toNat % 16 * 4) (by omega)
    have hthird := @digit_ne_pad (b.toNat % 16 * 4) (by omega)
    have hsecond := second_byte a b 0
    rw [show (0 : UInt8).toNat / 64 = 0 from rfl, Nat.add_zero] at hsecond
    change decodeLast _ _ _ pad = _
    rw [decodeLast, h₁, h₂]
    dsimp only [Option.bind_eq_bind, Option.bind_some]
    rw [if_neg hthird, h₃]
    dsimp only [Option.bind_some]
    rw [if_pos rfl, if_pos (by omega), first_byte, hsecond]
  | case4 a b c bytes ih =>
    rw [List.map_append, decode_group, ih]
    rfl

end Base64
