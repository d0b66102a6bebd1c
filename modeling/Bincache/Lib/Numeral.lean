import Mathlib.Data.List.GetD
import Mathlib.Data.Nat.Digits.Lemmas
import Mathlib.Tactic.Ring

/-!
# Byte strings as little-endian numbers

`value` reads a byte string as a number, least significant byte first. A codec that regroups the
bits of a byte string is then arithmetic on one number: a window of two neighbouring bytes is a
quotient modulo `2 ^ 16`, and or-ing bits that are still clear into one byte is an addition.
-/

namespace Numeral

/-- The number a byte string spells, least significant byte first. -/
def value (bytes : List UInt8) : ℕ := Nat.ofDigits 256 (bytes.map UInt8.toNat)

@[simp] theorem value_nil : value [] = 0 := rfl

@[simp] theorem value_cons (b : UInt8) (bytes : List UInt8) :
    value (b :: bytes) = b.toNat + 256 * value bytes := by
  simp [value, Nat.ofDigits_cons]

private theorem toNat_lt_of_mem {bytes : List UInt8} :
    ∀ d ∈ bytes.map UInt8.toNat, d < 256 := by
  intro d hd
  obtain ⟨b, -, rfl⟩ := List.mem_map.mp hd
  exact b.toNat_lt

theorem value_lt (bytes : List UInt8) : value bytes < 256 ^ bytes.length := by
  have := Nat.ofDigits_lt_base_pow_length (b := 256) (by decide) (@toNat_lt_of_mem bytes)
  rwa [List.length_map] at this

@[simp] theorem value_replicate_zero (n : ℕ) : value (List.replicate n 0) = 0 := by
  induction n with
  | zero => rfl
  | succ n ih => rw [List.replicate_succ, value_cons, ih]; rfl

theorem eq_of_value_eq {a b : List UInt8} (hlen : a.length = b.length)
    (h : value a = value b) : a = b := by
  have hmap : a.map UInt8.toNat = b.map UInt8.toNat :=
    Nat.ofDigits_inj_of_len_eq (by decide) (by simpa using hlen) toNat_lt_of_mem toNat_lt_of_mem h
  exact List.map_injective_iff.mpr (fun _ _ ↦ UInt8.toNat_inj.mp) hmap

theorem value_drop (bytes : List UInt8) (k : ℕ) :
    value (bytes.drop k) = value bytes / 256 ^ k := by
  rw [value, value, List.map_drop,
    Nat.ofDigits_div_pow_eq_ofDigits_drop k (by decide) _ toNat_lt_of_mem]

theorem toNat_getD (bytes : List UInt8) (k : ℕ) :
    (bytes.getD k 0).toNat = value bytes / 256 ^ k % 256 := by
  rw [← value_drop]
  rcases lt_or_ge k bytes.length with hk | hk
  · rw [List.drop_eq_getElem_cons hk, value_cons, List.getD_eq_getElem _ _ hk]
    have := bytes[k].toNat_lt
    omega
  · rw [List.drop_eq_nil_of_le hk, List.getD_eq_default _ _ hk]
    rfl

/-- Two neighbouring bytes, read as one 16-bit number. -/
theorem window_eq (bytes : List UInt8) (k : ℕ) :
    (bytes.getD k 0).toNat + 256 * (bytes.getD (k + 1) 0).toNat
      = value bytes / 256 ^ k % 2 ^ 16 := by
  rw [toNat_getD, toNat_getD, pow_succ, ← Nat.div_div_eq_div_mul]
  omega

/-- Changing one byte by `d` changes the value by `d` at that byte's place. -/
theorem value_modify {f : UInt8 → UInt8} {d : ℕ} {bytes : List UInt8} {k : ℕ}
    (hk : k < bytes.length) (hf : (f bytes[k]).toNat = bytes[k].toNat + d) :
    value (bytes.modify k f) = value bytes + d * 256 ^ k := by
  induction bytes generalizing k with
  | nil => exact absurd hk (by simp)
  | cons b bytes ih =>
    cases k with
    | zero =>
      have hb : (f b).toNat = b.toNat + d := hf
      rw [List.modify_zero_cons, value_cons, value_cons, hb]
      ring
    | succ k =>
      have hk' : k < bytes.length := Nat.lt_of_succ_lt_succ hk
      rw [List.modify_succ_cons, value_cons, value_cons, ih hk' hf, pow_succ]
      ring

/-- Below `2 ^ s`, or-ing a multiple of `2 ^ s` into a byte adds it. -/
theorem toNat_or_of_lt {b x : UInt8} {s a : ℕ} (hb : b.toNat < 2 ^ s) (hx : x.toNat = 2 ^ s * a) :
    (b ||| x).toNat = b.toNat + x.toNat := by
  rw [UInt8.toNat_or, Nat.or_comm, hx, ← Nat.two_pow_add_eq_or_of_lt hb, Nat.add_comm]

end Numeral
