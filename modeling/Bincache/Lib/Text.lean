import Mathlib.Algebra.Ring.Nat
import Mathlib.Data.Char
import Mathlib.Data.List.DropRight
import Mathlib.Data.List.Infix

/-!
# Text as a list of characters

The string operations of a UTF-8 language on lists of characters. A text is a list of Unicode
scalar values, so it is well-formed by construction; its byte form is `utf8`, and every length or
index a program counts in bytes goes through it. Splitting, trimming and prefix tests are stated on
characters: the patterns programs split on are ASCII, and no byte of a longer encoding is an ASCII
byte, so both views cut a text at the same places.
-/

/-- A well-formed UTF-8 text. -/
abbrev Text := List Char

abbrev Bytes := List UInt8

namespace Text

/-! ## Bytes -/

def utf8 (text : Text) : Bytes := text.flatMap String.utf8EncodeChar

/-- The text a byte string encodes, if it is valid UTF-8. -/
def fromUtf8 (bytes : Bytes) : Option Text :=
  (ByteArray.utf8Decode? bytes.toByteArray).map Array.toList

def byteLen (text : Text) : ℕ := (utf8 text).length

@[simp] theorem utf8_nil : utf8 [] = [] := rfl

@[simp] theorem utf8_cons (c : Char) (text : Text) :
    utf8 (c :: text) = String.utf8EncodeChar c ++ utf8 text := rfl

@[simp] theorem utf8_append (a b : Text) : utf8 (a ++ b) = utf8 a ++ utf8 b :=
  List.flatMap_append

private theorem toByteArray_utf8 (text : Text) : (utf8 text).toByteArray = text.utf8Encode := by
  induction text with
  | nil => simp
  | cons c text ih =>
    rw [List.utf8Encode_cons, List.utf8Encode_singleton, ← ih, utf8_cons, List.toByteArray_append]

theorem fromUtf8_utf8 (text : Text) : fromUtf8 (utf8 text) = some text := by
  rw [fromUtf8, toByteArray_utf8, List.utf8Decode?_utf8Encode]
  simp

theorem utf8_of_fromUtf8 {bytes : Bytes} {text : Text} (h : fromUtf8 bytes = some text) :
    utf8 text = bytes := by
  rw [fromUtf8, Option.map_eq_some_iff] at h
  obtain ⟨chars, hdecode, rfl⟩ := h
  have hsome : (ByteArray.utf8Decode? bytes.toByteArray).isSome := by rw [hdecode]; rfl
  have hback := ByteArray.utf8Encode_get_utf8Decode? (b := bytes.toByteArray) (h := hsome)
  rw [← toByteArray_utf8] at hback
  have hget : (ByteArray.utf8Decode? bytes.toByteArray).get hsome = chars := by
    simp [hdecode]
  rw [hget] at hback
  exact List.toByteArray_inj.mp hback

theorem utf8_injective : Function.Injective utf8 := by
  intro a b h
  have := fromUtf8_utf8 a
  rw [h, fromUtf8_utf8] at this
  exact (Option.some.inj this).symm

theorem utf8_of_ascii {text : Text} (h : ∀ c ∈ text, c.toNat < 128) :
    utf8 text = text.map Char.toUInt8 := by
  induction text with
  | nil => rfl
  | cons c text ih =>
    have hc : c.utf8Size = 1 := by
      rw [Char.utf8Size_eq_one_iff, UInt32.le_iff_toNat_le]
      exact Nat.le_of_lt_succ (h c List.mem_cons_self)
    rw [utf8_cons, String.utf8EncodeChar_eq_singleton hc,
      ih fun d hd ↦ h d (List.mem_cons_of_mem _ hd)]
    rfl

@[simp] theorem byteLen_nil : byteLen [] = 0 := rfl

theorem byteLen_append (a b : Text) : byteLen (a ++ b) = byteLen a + byteLen b := by
  rw [byteLen, utf8_append, List.length_append, byteLen, byteLen]

theorem byteLen_cons (c : Char) (text : Text) :
    byteLen (c :: text) = c.utf8Size + byteLen text := by
  rw [byteLen, utf8_cons, List.length_append, String.length_utf8EncodeChar, byteLen]

theorem byteLen_eq_zero {text : Text} : byteLen text = 0 ↔ text = [] := by
  rcases text with _ | ⟨c, text⟩
  · exact iff_of_true rfl rfl
  · have := c.utf8Size_pos
    rw [byteLen_cons]
    refine iff_of_false (by omega) (by simp)

theorem byteLen_of_ascii {text : Text} (h : ∀ c ∈ text, c.toNat < 128) :
    byteLen text = text.length := by
  rw [byteLen, utf8_of_ascii h, List.length_map]

/-! ## Where a text can be cut -/

/-- No byte of a longer encoding is an ASCII byte. -/
theorem le_of_mem_encode {d : Char} (h : d.utf8Size ≠ 1) {byte : UInt8}
    (hbyte : byte ∈ String.utf8EncodeChar d) : 128 ≤ byte.toNat := by
  have hor : ∀ a b : UInt8, 128 ≤ b.toNat → 128 ≤ (a ||| b).toNat := by
    intro a b hb
    rw [UInt8.toNat_or]
    exact hb.trans Nat.right_le_or
  obtain hsize | hsize | hsize | hsize := d.utf8Size_eq
  · exact absurd hsize h
  · rw [String.utf8EncodeChar_eq_cons_cons hsize] at hbyte
    simp only [List.mem_cons, List.not_mem_nil, or_false] at hbyte
    obtain rfl | rfl := hbyte <;> exact hor _ _ (by decide)
  · rw [String.utf8EncodeChar_eq_cons_cons_cons hsize] at hbyte
    simp only [List.mem_cons, List.not_mem_nil, or_false] at hbyte
    obtain rfl | rfl | rfl := hbyte <;> exact hor _ _ (by decide)
  · rw [String.utf8EncodeChar_eq_cons_cons_cons_cons hsize] at hbyte
    simp only [List.mem_cons, List.not_mem_nil, or_false] at hbyte
    obtain rfl | rfl | rfl | rfl := hbyte <;> exact hor _ _ (by decide)

theorem toNat_toUInt8 {c : Char} (hc : c.toNat < 128) : c.toUInt8.toNat = c.toNat := by
  rw [Char.toUInt8, UInt32.toNat_toUInt8]
  exact Nat.mod_eq_of_lt (hc.trans (by decide))

theorem toNat_lt_of_utf8Size {c : Char} (h : c.utf8Size = 1) : c.toNat < 128 := by
  rw [Char.utf8Size_eq_one_iff, UInt32.le_iff_toNat_le] at h
  exact Nat.lt_of_le_of_lt h (by decide)

private theorem toNat_ofNat_toNat {b : UInt8} : (Char.ofNat b.toNat).toNat = b.toNat := by
  have hvalid : b.toNat.isValidChar := .inl (b.toNat_lt.trans (by decide))
  rw [Char.ofNat, dif_pos hvalid]
  rfl

theorem fromUtf8_of_ascii {bytes : Bytes} (h : ∀ b ∈ bytes, b.toNat < 128) :
    fromUtf8 bytes = some (bytes.map fun b ↦ Char.ofNat b.toNat) := by
  have hutf8 : utf8 (bytes.map fun b ↦ Char.ofNat b.toNat) = bytes := by
    rw [utf8_of_ascii (by simpa [toNat_ofNat_toNat] using h), List.map_map]
    refine (List.map_congr_left fun b hb ↦ ?_).trans bytes.map_id
    apply UInt8.toNat_inj.mp
    rw [Function.comp_apply, toNat_toUInt8 (toNat_ofNat_toNat.trans_lt (h b hb)), toNat_ofNat_toNat]
    rfl
  rw [← hutf8, fromUtf8_utf8, hutf8]

/-- `fromUtf8`, quick to evaluate on ASCII. -/
def decode (bytes : Bytes) : Option Text :=
  if bytes.all fun b ↦ b.toNat < 128 then some (bytes.map fun b ↦ Char.ofNat b.toNat)
  else (ByteArray.utf8Decode? bytes.toByteArray).map Array.toList

theorem fromUtf8_eq_decode (bytes : Bytes) : fromUtf8 bytes = decode bytes := by
  rw [decode]
  split
  · next h => exact fromUtf8_of_ascii fun b hb ↦ of_decide_eq_true (List.all_eq_true.mp h b hb)
  · rfl

/-- Where a byte is the ASCII one of a character, that character stands, and the text can be cut in
front of it. -/
theorem exists_cut {c : Char} (hc : c.toNat < 128) {text : Text} {n : ℕ}
    (h : (utf8 text)[n]? = some c.toUInt8) :
    ∃ before rest, text = before ++ c :: rest ∧ byteLen before = n := by
  induction text generalizing n with
  | nil => exact absurd h (by simp)
  | cons d text ih =>
    rw [utf8_cons] at h
    by_cases hn : n < d.utf8Size
    · rw [List.getElem?_append_left (by rwa [String.length_utf8EncodeChar])] at h
      have hmem := List.mem_of_getElem? h
      have hsize : d.utf8Size = 1 := by
        by_contra hlong
        have := le_of_mem_encode hlong hmem
        rw [toNat_toUInt8 hc] at this
        omega
      rw [String.utf8EncodeChar_eq_singleton hsize, List.mem_singleton] at hmem
      obtain rfl : c = d := by
        refine Char.toNat_inj.mp ?_
        rw [← toNat_toUInt8 hc, ← toNat_toUInt8 (toNat_lt_of_utf8Size hsize)]
        exact congrArg UInt8.toNat hmem
      exact ⟨[], text, rfl, by rw [byteLen_nil]; omega⟩
    · rw [List.getElem?_append_right (by rw [String.length_utf8EncodeChar]; omega),
        String.length_utf8EncodeChar] at h
      obtain ⟨before, rest, rfl, hlen⟩ := ih h
      exact ⟨d :: before, rest, rfl, by rw [byteLen_cons, hlen]; omega⟩

/-! ## Prefixes, suffixes and splitting -/

/-- The rest of a text after a prefix, if it starts with it. -/
def stripPrefix : Text → Text → Option Text
  | [], text => some text
  | _ :: _, [] => none
  | c :: pre, d :: text => if c = d then stripPrefix pre text else none

theorem stripPrefix_eq_some {pre text rest : Text} :
    stripPrefix pre text = some rest ↔ text = pre ++ rest := by
  induction pre generalizing text with
  | nil => simp [stripPrefix, eq_comm]
  | cons c pre ih =>
    cases text with
    | nil => simp [stripPrefix]
    | cons d text =>
      by_cases hcd : c = d
      · simp [stripPrefix, hcd, ih]
      · simp [stripPrefix, hcd, Ne.symm hcd]

@[simp] theorem stripPrefix_append (pre rest : Text) :
    stripPrefix pre (pre ++ rest) = some rest :=
  stripPrefix_eq_some.mpr rfl

/-- The rest of a text before a suffix, if it ends with it. -/
def stripSuffix (suffix text : Text) : Option Text :=
  (stripPrefix suffix.reverse text.reverse).map List.reverse

theorem stripSuffix_eq_some {suffix text rest : Text} :
    stripSuffix suffix text = some rest ↔ text = rest ++ suffix := by
  simp only [stripSuffix, Option.map_eq_some_iff, stripPrefix_eq_some]
  constructor
  · rintro ⟨back, hback, rfl⟩
    rw [← List.reverse_reverse text, hback, List.reverse_append, List.reverse_reverse]
  · rintro rfl
    exact ⟨rest.reverse, List.reverse_append, List.reverse_reverse rest⟩

/-- The parts of a text before and after the first occurrence of a pattern. -/
def splitOnce (pattern : Text) : Text → Option (Text × Text)
  | [] => (stripPrefix pattern []).map fun rest ↦ ([], rest)
  | c :: text =>
    match stripPrefix pattern (c :: text) with
    | some rest => some ([], rest)
    | none => (splitOnce pattern text).map fun halves ↦ (c :: halves.1, halves.2)

theorem append_of_splitOnce {pattern text before after : Text}
    (h : splitOnce pattern text = some (before, after)) : text = before ++ pattern ++ after := by
  induction text generalizing before with
  | nil =>
    simp only [splitOnce, Option.map_eq_some_iff, stripPrefix_eq_some, Prod.mk.injEq] at h
    obtain ⟨rest, hrest, rfl, rfl⟩ := h
    exact hrest
  | cons c text ih =>
    rw [splitOnce] at h
    split at h
    · next rest hrest =>
      simp only [Option.some.injEq, Prod.mk.injEq] at h
      obtain ⟨rfl, rfl⟩ := h
      exact stripPrefix_eq_some.mp hrest
    · simp only [Option.map_eq_some_iff, Prod.mk.injEq] at h
      obtain ⟨⟨first, rest⟩, hsplit, rfl, rfl⟩ := h
      rw [ih hsplit]
      simp

/-- A text whose first part avoids the pattern's first character is cut right after it. -/
theorem splitOnce_append {c : Char} {pattern before after : Text} (h : c ∉ before) :
    splitOnce (c :: pattern) (before ++ c :: pattern ++ after) = some (before, after) := by
  induction before with
  | nil =>
    rw [List.nil_append, List.cons_append, splitOnce, ← List.cons_append, stripPrefix_append]
  | cons d before ih =>
    have hdc : c ≠ d := fun hcd ↦ h (hcd ▸ List.mem_cons_self)
    have hmem : c ∉ before := fun hc ↦ h (List.mem_cons_of_mem _ hc)
    rw [List.cons_append, List.cons_append, splitOnce, stripPrefix, if_neg hdc, ih hmem]
    rfl

theorem splitOnce_eq_some {c : Char} {text before after : Text} :
    splitOnce [c] text = some (before, after) ↔ text = before ++ c :: after ∧ c ∉ before := by
  constructor
  · intro h
    refine ⟨by simpa using append_of_splitOnce h, ?_⟩
    induction text generalizing before with
    | nil => simp [splitOnce, stripPrefix] at h
    | cons d text ih =>
      rw [splitOnce] at h
      split at h
      · cases h
        exact List.not_mem_nil
      · next hstrip =>
        simp only [Option.map_eq_some_iff, Prod.mk.injEq] at h
        obtain ⟨⟨first, rest⟩, hsplit, rfl, rfl⟩ := h
        have hcd : c ≠ d := by
          rintro rfl
          simp [stripPrefix] at hstrip
        exact List.not_mem_cons_of_ne_of_not_mem hcd (ih hsplit)
  · rintro ⟨rfl, hbefore⟩
    simpa using @splitOnce_append c [] before after hbefore

/-- There is one first occurrence of a character. -/
theorem append_cons_inj {c : Char} {a b a' b' : Text} (ha : c ∉ a) (ha' : c ∉ a')
    (h : a ++ c :: b = a' ++ c :: b') : a = a' ∧ b = b' := by
  have hsplit := splitOnce_eq_some.mpr ⟨h, ha'⟩
  rw [splitOnce_eq_some.mpr ⟨rfl, ha⟩] at hsplit
  exact Prod.mk.inj (Option.some.inj hsplit)

/-- The pieces of a text between line feeds. A carriage return right before one belongs to the
line ending, and a last line needs no ending. -/
def lines (text : Text) : List Text :=
  let pieces := text.splitOn '\n'
  let ended := pieces.dropLast.map fun line ↦ (stripSuffix ['\r'] line).getD line
  match pieces.getLast? with
  | none | some [] => ended
  | some last => ended ++ [last]

/-- A line without the carriage return of its ending. -/
def chomp (line : Text) : Text := (stripSuffix ['\r'] line).getD line

theorem chomp_eq_self_iff {line : Text} : chomp line = line ↔ line.getLast? ≠ some '\r' := by
  rw [chomp]
  cases h : stripSuffix ['\r'] line with
  | none =>
    refine iff_of_true rfl fun hlast ↦ ?_
    obtain ⟨rest, rfl⟩ := List.getLast?_eq_some_iff.mp hlast
    exact absurd (h.symm.trans (stripSuffix_eq_some.mpr rfl)) (by simp)
  | some rest =>
    obtain rfl := stripSuffix_eq_some.mp h
    simp

theorem chomp_append {before line : Text} (h : line ≠ []) :
    chomp (before ++ line) = before ++ chomp line := by
  cases hline : stripSuffix ['\r'] line with
  | none =>
    have hlast : line.getLast? ≠ some '\r' := chomp_eq_self_iff.mp (by rw [chomp, hline]; rfl)
    have hlast' : (before ++ line).getLast? ≠ some '\r' := by
      rwa [List.getLast?_append_of_ne_nil _ h]
    rw [chomp_eq_self_iff.mpr hlast, chomp_eq_self_iff.mpr hlast']
  | some rest =>
    obtain rfl := stripSuffix_eq_some.mp hline
    have hstrip : stripSuffix ['\r'] (before ++ (rest ++ ['\r'])) = some (before ++ rest) :=
      stripSuffix_eq_some.mpr (List.append_assoc _ _ _).symm
    rw [chomp, chomp, hstrip, hline]
    rfl

theorem notMem_chomp {c : Char} {line : Text} (h : c ∉ line) : c ∉ chomp line := by
  rw [chomp]
  cases hline : stripSuffix ['\r'] line with
  | none => exact h
  | some rest =>
    obtain rfl := stripSuffix_eq_some.mp hline
    exact fun hmem ↦ h (List.mem_append_left _ hmem)

theorem notMem_of_mem_splitOn {c : Char} {text piece : Text} (h : piece ∈ text.splitOn c) :
    c ∉ piece := by
  induction text generalizing piece with
  | nil =>
    obtain rfl := List.mem_singleton.mp h
    exact List.not_mem_nil
  | cons d text ih =>
    rw [List.splitOn_cons_eq_if_modifyHead] at h
    by_cases hdc : d = c
    · rw [if_pos (beq_iff_eq.mpr hdc), List.mem_cons] at h
      obtain rfl | h := h
      · exact List.not_mem_nil
      · exact ih h
    · rw [if_neg (mt beq_iff_eq.mp hdc)] at h
      obtain ⟨first, rest, hsplit⟩ := List.exists_cons_of_ne_nil (List.splitOn_ne_nil c text)
      rw [hsplit, List.modifyHead_cons, List.mem_cons] at h
      obtain rfl | h := h
      · exact List.not_mem_cons_of_ne_of_not_mem (Ne.symm hdc) (ih (by simp [hsplit]))
      · exact ih (by simp [hsplit, h])

theorem notMem_of_mem_lines {text line : Text} (h : line ∈ lines text) : '\n' ∉ line := by
  have hended : ∀ line ∈ (text.splitOn '\n').dropLast.map chomp, '\n' ∉ line := by
    intro line hline
    obtain ⟨piece, hpiece, rfl⟩ := List.mem_map.mp hline
    exact notMem_chomp (notMem_of_mem_splitOn (List.mem_of_mem_dropLast hpiece))
  change line ∈ (match (text.splitOn '\n').getLast? with
    | none | some [] => (text.splitOn '\n').dropLast.map chomp
    | some last => (text.splitOn '\n').dropLast.map chomp ++ [last]) at h
  split at h
  · exact hended line h
  · exact hended line h
  · next last hlast =>
    obtain h | h := List.mem_append.mp h
    · exact hended line h
    · obtain rfl := List.mem_singleton.mp h
      exact notMem_of_mem_splitOn (List.mem_of_mem_getLast? hlast)

/-- Lines that are written with a line feed each are read without the carriage returns they end
with. -/
theorem lines_flatMap {texts : List Text} (h : ∀ text ∈ texts, '\n' ∉ text) :
    lines (texts.flatMap (· ++ ['\n'])) = texts.map chomp := by
  have hsplit : (texts.flatMap (· ++ ['\n'])).splitOn '\n' = texts ++ [[]] := by
    induction texts with
    | nil => rfl
    | cons text texts ih =>
      rw [List.flatMap_cons, List.append_assoc, List.singleton_append,
        List.splitOn_append_cons_self_of_not_mem (h text List.mem_cons_self),
        ih fun t ht ↦ h t (List.mem_cons_of_mem _ ht)]
      rfl
  rw [lines, hsplit, List.getLast?_concat, List.dropLast_concat]
  rfl

/-- The pieces of a text between occurrences of CR LF. -/
def splitCrlf : Text → List Text
  | [] => [[]]
  | '\r' :: '\n' :: text => [] :: splitCrlf text
  | c :: text =>
    match splitCrlf text with
    | [] => [[c]]
    | piece :: pieces => (c :: piece) :: pieces

/-- `splitCrlf`, where CR LF ends a piece instead of separating two. -/
def splitCrlfTerminator (text : Text) : List Text :=
  let pieces := splitCrlf text
  if pieces.getLast? = some [] then pieces.dropLast else pieces

theorem pair_infix_cons {α : Type} {a b x : α} {l : List α} :
    [a, b] <:+: x :: l ↔ (x = a ∧ l.head? = some b) ∨ [a, b] <:+: l := by
  rw [List.infix_cons_iff, List.cons_prefix_cons]
  refine or_congr_left (and_congr eq_comm ?_)
  cases l with
  | nil => simp
  | cons y l => simp [List.cons_prefix_cons, eq_comm]

theorem pair_infix_append {α : Type} {a b : α} {l r : List α} :
    [a, b] <:+: l ++ r ↔ [a, b] <:+: l ∨ (l.getLast? = some a ∧ r.head? = some b)
      ∨ [a, b] <:+: r := by
  induction l with
  | nil => simp
  | cons x l ih =>
    rw [List.cons_append, pair_infix_cons, ih, pair_infix_cons]
    cases l with
    | nil => simp
    | cons y l => simp [or_assoc]

theorem crlf_infix_of_utf8 {text : Text} (h : [13, 10] <:+: utf8 text) :
    ['\r', '\n'] <:+: text := by
  obtain ⟨before, after, heq⟩ := h
  rw [List.append_assoc] at heq
  have hreturn : (utf8 text)[before.length]? = some '\r'.toUInt8 := by
    rw [← heq, List.getElem?_append_right le_rfl, Nat.sub_self]
    rfl
  obtain ⟨front, rest, rfl, hlength⟩ := exists_cut (by decide) hreturn
  rw [utf8_append] at heq
  obtain ⟨-, hrest⟩ := List.append_inj heq hlength.symm
  have hrest : 10 :: after = utf8 rest := (List.cons.inj hrest).2
  have hfeed : (utf8 rest)[0]? = some '\n'.toUInt8 := by
    rw [← hrest]
    rfl
  obtain ⟨between, rest', rfl, hzero⟩ := exists_cut (by decide) hfeed
  obtain rfl := byteLen_eq_zero.mp hzero
  exact ⟨front, rest', by simp⟩

theorem head?_splitCrlf {text piece : Text} {pieces : List Text} {c : Char}
    (h : splitCrlf text = (c :: piece) :: pieces) : text.head? = some c := by
  cases text using splitCrlf.fun_cases with
  | case1 => cases h
  | case2 text => cases h
  | case3 d text hbreak hnil =>
    rw [splitCrlf, hnil] at h
    · obtain rfl := (List.cons.inj (List.cons.inj h).1).1
      rfl
    · exact hbreak
  | case4 d text hbreak piece' pieces' hpieces =>
    rw [splitCrlf, hpieces] at h
    · obtain rfl := (List.cons.inj (List.cons.inj h).1).1
      rfl
    · exact hbreak

theorem notInfix_of_mem_splitCrlf {text piece : Text} (h : piece ∈ splitCrlf text) :
    ¬['\r', '\n'] <:+: piece := by
  induction text using splitCrlf.induct generalizing piece with
  | case1 =>
    obtain rfl := List.mem_singleton.mp h
    simp
  | case2 text ih =>
    obtain rfl | h := List.mem_cons.mp h
    · simp
    · exact ih h
  | case3 c text hbreak hnil ih =>
    rw [splitCrlf, hnil] at h
    · obtain rfl := List.mem_singleton.mp h
      simp [pair_infix_cons]
    · exact hbreak
  | case4 c text hbreak first pieces hpieces ih =>
    rw [splitCrlf, hpieces] at h
    · obtain rfl | h := List.mem_cons.mp h
      · rw [pair_infix_cons, not_or]
        refine ⟨?_, ih (by rw [hpieces]; exact List.mem_cons_self)⟩
        rintro ⟨rfl, hfeed⟩
        rcases first with - | ⟨d, first⟩
        · cases hfeed
        · obtain rfl := Option.some.inj hfeed
          obtain ⟨rest, rfl⟩ := List.head?_eq_some_iff.mp (head?_splitCrlf hpieces)
          exact hbreak rest rfl rfl
      · exact ih (by rw [hpieces]; exact List.mem_cons_of_mem _ h)
    · exact hbreak

theorem splitCrlf_append {piece text : Text} (h : ¬['\r', '\n'] <:+: piece) :
    splitCrlf (piece ++ '\r' :: '\n' :: text) = piece :: splitCrlf text := by
  induction piece with
  | nil => rfl
  | cons c piece ih =>
    rw [pair_infix_cons, not_or] at h
    rw [List.cons_append, splitCrlf, ih h.2]
    rintro rest rfl heq
    rcases piece with _ | ⟨d, piece⟩
    · exact absurd (List.cons.inj heq).1 (by decide)
    · exact h.1 ⟨rfl, congrArg some (List.cons.inj heq).1⟩

/-! ## Character classes -/

/-- The characters with the Unicode property `White_Space`. -/
def isWhiteSpace (c : Char) : Bool :=
  let n := c.toNat
  (0x9 ≤ n && n ≤ 0xd) || n == 0x20 || n == 0x85 || n == 0xa0 || n == 0x1680
    || (0x2000 ≤ n && n ≤ 0x200a) || n == 0x2028 || n == 0x2029 || n == 0x202f || n == 0x205f
    || n == 0x3000

/-- A text without the white space at its ends. -/
def trim (text : Text) : Text := (text.dropWhile isWhiteSpace).rdropWhile isWhiteSpace

/-- A text that neither starts nor ends with white space. -/
structure Trimmed (text : Text) : Prop where
  head : ∀ c, text.head? = some c → isWhiteSpace c = false
  last : ∀ c, text.getLast? = some c → isWhiteSpace c = false

theorem trimmed_of_forall {text : Text} (h : ∀ c ∈ text, isWhiteSpace c = false) : Trimmed text :=
  ⟨fun _ hc ↦ h _ (List.mem_of_mem_head? hc), fun _ hc ↦ h _ (List.mem_of_mem_getLast? hc)⟩

theorem trim_eq_self {text : Text} (h : Trimmed text) : trim text = text := by
  have hdrop : text.dropWhile isWhiteSpace = text := by
    cases text with
    | nil => rfl
    | cons c text =>
      rw [List.dropWhile_cons_of_neg (by rw [h.head c rfl]; exact Bool.false_ne_true)]
  rw [trim, hdrop, List.rdropWhile_eq_self_iff]
  intro hnil
  rw [h.last _ (List.getLast?_eq_some_getLast hnil)]
  exact Bool.false_ne_true

theorem trim_infix (text : Text) : trim text <:+: text :=
  (List.rdropWhile_prefix _ _).isInfix.trans (List.dropWhile_suffix _).isInfix

theorem trimmed_trim (text : Text) : Trimmed (trim text) := by
  constructor
  · intro c hc
    have hstart : trim text <+: text.dropWhile isWhiteSpace := List.rdropWhile_prefix _ _
    obtain ⟨rest, hrest⟩ := hstart
    have hhead : (text.dropWhile isWhiteSpace).head? = some c := by
      rw [← hrest, List.head?_append, hc]
      rfl
    have hnot := List.head?_dropWhile_not isWhiteSpace text
    rw [hhead] at hnot
    exact hnot
  · intro c hc
    obtain ⟨hne, rfl⟩ := List.mem_getLast?_eq_getLast (Option.mem_def.mpr hc)
    exact Bool.eq_false_iff.mpr (List.rdropWhile_last_not _ _ hne)

theorem exists_trim (text : Text) : ∃ before after, text = before ++ trim text ++ after
    ∧ (∀ c ∈ before, isWhiteSpace c = true) ∧ ∀ c ∈ after, isWhiteSpace c = true := by
  refine ⟨text.takeWhile isWhiteSpace, (text.dropWhile isWhiteSpace).rtakeWhile isWhiteSpace, ?_,
    fun c hc ↦ List.mem_takeWhile_imp hc, fun c hc ↦ List.mem_rtakeWhile_imp hc⟩
  rw [trim, List.append_assoc, List.rdropWhile_append_rtakeWhile, List.takeWhile_append_dropWhile]

theorem trim_pad {before text after : Text} (hbefore : ∀ c ∈ before, isWhiteSpace c = true)
    (hafter : ∀ c ∈ after, isWhiteSpace c = true) :
    trim (before ++ text ++ after) = trim text := by
  have hlast : ∀ text : Text,
      (text ++ after).rdropWhile isWhiteSpace = text.rdropWhile isWhiteSpace := by
    intro text
    rw [List.rdropWhile, List.reverse_append, List.dropWhile_append_of_pos, ← List.rdropWhile]
    exact fun c hc ↦ hafter c (List.mem_reverse.mp hc)
  rw [trim, List.append_assoc, List.dropWhile_append_of_pos hbefore, List.dropWhile_append]
  split
  · next hnil =>
    rw [trim, List.isEmpty_iff.mp hnil, List.dropWhile_eq_nil_iff.mpr hafter]
  · exact hlast _

/-- Equality up to the case of ASCII letters. -/
def eqIgnoreAsciiCase (a b : Text) : Bool := a.map Char.toLower == b.map Char.toLower

/-- White space is no letter, so it survives the comparison. -/
private theorem toLower_of_isWhiteSpace {c : Char} (h : isWhiteSpace c = true) :
    c.toLower = c := by
  refine dif_neg ?_
  rintro ⟨hle, hge⟩
  have h65 : 65 ≤ c.toNat := UInt32.le_iff_toNat_le.mp hle
  have h90 : c.toNat ≤ 90 := UInt32.le_iff_toNat_le.mp hge
  simp only [isWhiteSpace, Bool.or_eq_true, Bool.and_eq_true, decide_eq_true_eq,
    beq_iff_eq] at h
  omega

theorem notMem_of_eqIgnoreAsciiCase {a b : Text} {c : Char} (h : eqIgnoreAsciiCase a b = true)
    (hc : c.toLower ∉ b.map Char.toLower) : c ∉ a := by
  intro hmem
  have hlower : c.toLower ∈ a.map Char.toLower := List.mem_map_of_mem hmem
  rw [beq_iff_eq.mp h] at hlower
  exact hc hlower

theorem isWhiteSpace_of_eqIgnoreAsciiCase {a b : Text}
    (hb : (b.map Char.toLower).any isWhiteSpace = false) (h : eqIgnoreAsciiCase a b = true) :
    ∀ c ∈ a, isWhiteSpace c = false := by
  intro c hc
  by_contra hspace
  rw [Bool.not_eq_false] at hspace
  refine notMem_of_eqIgnoreAsciiCase h (fun hmem ↦ ?_) hc
  rw [toLower_of_isWhiteSpace hspace] at hmem
  exact List.any_eq_false.mp hb c hmem hspace

/-! ## Decimal numbers -/

def decimal (n : ℕ) : Text := Nat.toDigits 10 n

/-- An unsigned 64-bit number: an optional `+`, then one or more digits. -/
def parseU64 (text : Text) : Option ℕ :=
  let digits := (stripPrefix ['+'] text).getD text
  if digits ≠ [] ∧ digits.all Char.isDigit then
    let value := Nat.ofDigitChars 10 digits 0
    if value < 2 ^ 64 then some value else none
  else none

theorem isDigit_of_mem_decimal {n : ℕ} {c : Char} (h : c ∈ decimal n) : c.isDigit = true :=
  Nat.isDigit_of_mem_toDigits (by decide) (by decide) h

theorem isWhiteSpace_of_isDigit {c : Char} (h : c.isDigit = true) : isWhiteSpace c = false := by
  simp only [Char.isDigit, Bool.and_eq_true, decide_eq_true_eq] at h
  have hlow : 48 ≤ c.toNat := UInt32.le_iff_toNat_le.mp h.1
  have hhigh : c.toNat ≤ 57 := UInt32.le_iff_toNat_le.mp h.2
  rw [isWhiteSpace]
  simp only [Bool.or_eq_false_iff, Bool.and_eq_false_iff, decide_eq_false_iff_not,
    beq_eq_false_iff_ne]
  omega

theorem decimal_ne_nil (n : ℕ) : decimal n ≠ [] := Nat.toDigits_ne_nil

theorem ofDigitChars_decimal (n : ℕ) : Nat.ofDigitChars 10 (decimal n) 0 = n :=
  Nat.ofDigitChars_ten_toDigits

theorem decimal_injective : Function.Injective decimal := by
  intro a b h
  rw [← ofDigitChars_decimal a, h, ofDigitChars_decimal]

theorem parseU64_decimal {n : ℕ} (h : n < 2 ^ 64) : parseU64 (decimal n) = some n := by
  have hall : (decimal n).all Char.isDigit = true :=
    List.all_eq_true.mpr fun c hc ↦ isDigit_of_mem_decimal hc
  have hsign : stripPrefix ['+'] (decimal n) = none := by
    rw [Option.eq_none_iff_forall_ne_some]
    intro rest hrest
    have hmem : '+' ∈ decimal n := by rw [stripPrefix_eq_some.mp hrest]; simp
    exact absurd (isDigit_of_mem_decimal hmem) (by decide)
  rw [parseU64, hsign, Option.getD_none, if_pos ⟨decimal_ne_nil n, hall⟩, ofDigitChars_decimal,
    if_pos h]

theorem parseU64_lt {text : Text} {n : ℕ} (h : parseU64 text = some n) : n < 2 ^ 64 := by
  rw [parseU64] at h
  split at h
  · dsimp only at h
    split at h
    · next hlt => exact Option.some.inj h ▸ hlt
    · exact absurd h (by simp)
  · exact absurd h (by simp)

/-- One or more digits, of a number below `2 ^ 64`. -/
structure Digits (text : Text) (n : ℕ) : Prop where
  ne_nil : text ≠ []
  digit : ∀ c ∈ text, c.isDigit = true
  value : Nat.ofDigitChars 10 text 0 = n
  lt : n < 2 ^ 64

theorem Digits.unique {text : Text} {m n : ℕ} (hm : Digits text m) (hn : Digits text n) : m = n :=
  hm.value.symm.trans hn.value

theorem Digits.notMem {text : Text} {n : ℕ} (h : Digits text n) {c : Char}
    (hc : c.isDigit = false) : c ∉ text :=
  fun hmem ↦ Bool.false_ne_true (hc.symm.trans (h.digit c hmem))

theorem digits_decimal {n : ℕ} (h : n < 2 ^ 64) : Digits (decimal n) n :=
  ⟨decimal_ne_nil n, fun _ ↦ isDigit_of_mem_decimal, ofDigitChars_decimal n, h⟩

theorem digits_of_all {text : Text} {n : ℕ} (hne : text ≠ [])
    (hdigit : text.all Char.isDigit = true) (hvalue : Nat.ofDigitChars 10 text 0 = n)
    (hlt : n < 2 ^ 64) : Digits text n :=
  ⟨hne, List.all_eq_true.mp hdigit, hvalue, hlt⟩

/-- What `parseU64` accepts besides digits is a plus sign in front of them. -/
theorem parseU64_eq_some {text : Text} {n : ℕ} :
    parseU64 text = some n ↔ Digits text n ∨ ∃ digits, text = '+' :: digits ∧ Digits digits n := by
  have hdigits : ∀ digits : Text, (if digits ≠ [] ∧ digits.all Char.isDigit then
      if Nat.ofDigitChars 10 digits 0 < 2 ^ 64 then some (Nat.ofDigitChars 10 digits 0) else none
      else none) = some n ↔ Digits digits n := by
    intro digits
    constructor
    · intro h
      split at h
      · next hdigits =>
        split at h
        · next hlt =>
          obtain rfl := Option.some.inj h
          exact ⟨hdigits.1, List.all_eq_true.mp hdigits.2, rfl, hlt⟩
        · exact absurd h (by simp)
      · exact absurd h (by simp)
    · rintro ⟨hnil, hdigit, rfl, hlt⟩
      rw [if_pos ⟨hnil, List.all_eq_true.mpr hdigit⟩, if_pos hlt]
  rw [parseU64]
  cases hsign : stripPrefix ['+'] text with
  | none =>
    refine (hdigits text).trans (or_iff_left ?_).symm
    rintro ⟨digits, rfl, -⟩
    exact absurd (hsign.symm.trans (stripPrefix_append ['+'] digits)) (by simp)
  | some digits =>
    obtain rfl := stripPrefix_eq_some.mp hsign
    refine (hdigits digits).trans ⟨fun h ↦ .inr ⟨digits, rfl, h⟩, ?_⟩
    rintro (h | ⟨digits', heq, h⟩)
    · exact absurd (h.digit '+' List.mem_cons_self) (by decide)
    · obtain rfl : digits = digits' := List.cons_injective heq
      exact h

/-! ## Plain text -/

/-- ASCII without a line break. -/
def Plain (text : Text) : Prop := ∀ c ∈ text, c.toNat < 128 ∧ c ≠ '\r' ∧ c ≠ '\n'

instance (text : Text) : Decidable (Plain text) := List.decidableBAll _ text

theorem Plain.append {a b : Text} (ha : Plain a) (hb : Plain b) : Plain (a ++ b) :=
  fun c hc ↦ (List.mem_append.mp hc).elim (ha c) (hb c)

theorem Plain.cons {c : Char} {text : Text} (h : Plain text) (hc : Plain [c]) : Plain (c :: text) :=
  hc.append h

theorem plain_decimal (n : ℕ) : Plain (decimal n) := by
  intro c hc
  have hdigit := isDigit_of_mem_decimal hc
  refine ⟨?_, by rintro rfl; exact absurd hdigit (by decide),
    by rintro rfl; exact absurd hdigit (by decide)⟩
  simp only [Char.isDigit, Bool.and_eq_true, decide_eq_true_eq] at hdigit
  have := UInt32.le_iff_toNat_le.mp hdigit.2
  exact Nat.lt_of_le_of_lt this (by decide)

theorem Plain.notMem_utf8 {text : Text} (h : Plain text) : 13 ∉ utf8 text := by
  rw [utf8_of_ascii fun c hc ↦ (h c hc).1, List.mem_map]
  rintro ⟨c, hc, hbyte⟩
  refine (h c hc).2.1 (Char.toNat_inj.mp ?_)
  rw [← toNat_toUInt8 (h c hc).1]
  exact congrArg UInt8.toNat hbyte

end Text
