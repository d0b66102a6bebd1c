import Bincache.Core.Fingerprint

/-!
# What a fingerprint vouches for

The signed text is read back from left to right. The store directory may hold any character, the
separators among them, but it is the same in every path, so its length says where a path starts; a
base name has no separator, so the next one says where it ends.
-/

namespace Bincache

/-! ## Joined lists -/

/-- The texts `before ++ rest` with no separator in the rest. -/
private def Started (c : Char) (before text : Text) : Prop :=
  ∃ rest, text = before ++ rest ∧ c ∉ rest

private theorem join_cons (c : Char) (text : Text) (texts : List Text) :
    [c].intercalate (text :: texts)
      = text ++ if texts = [] then [] else c :: [c].intercalate texts := by
  cases texts with
  | nil => simp
  | cons next rest => simp [List.intercalate_cons_cons]

private theorem join_ne_nil {c : Char} {before : Text} (hbefore : before ≠ []) {text : Text}
    {texts : List Text} (h : Started c before text) : [c].intercalate (text :: texts) ≠ [] := by
  obtain ⟨rest, rfl, -⟩ := h
  rw [join_cons]
  simp [hbefore]

/-- A joined list of such texts can be taken apart again. -/
theorem join_injOn {c : Char} {before : Text} (hbefore : before ≠ []) {a b : List Text}
    (ha : ∀ text ∈ a, ∃ rest, text = before ++ rest ∧ c ∉ rest)
    (hb : ∀ text ∈ b, ∃ rest, text = before ++ rest ∧ c ∉ rest)
    (h : [c].intercalate a = [c].intercalate b) : a = b := by
  induction a generalizing b with
  | nil =>
    cases b with
    | nil => rfl
    | cons text texts => exact absurd h.symm (join_ne_nil hbefore (hb text List.mem_cons_self))
  | cons text texts ih =>
    cases b with
    | nil => exact absurd h (join_ne_nil hbefore (ha text List.mem_cons_self))
    | cons text' texts' =>
      obtain ⟨rest, rfl, hrest⟩ := ha text List.mem_cons_self
      obtain ⟨rest', rfl, hrest'⟩ := hb text' List.mem_cons_self
      rw [join_cons, join_cons, List.append_assoc, List.append_assoc, List.append_right_inj] at h
      have hmem : ∀ {x y z : Text}, x = y ++ c :: z → c ∈ x := by
        rintro x y z rfl
        exact List.mem_append_right y List.mem_cons_self
      by_cases hnil : texts = []
      · by_cases hnil' : texts' = []
        · rw [if_pos hnil, if_pos hnil', List.append_nil, List.append_nil] at h
          rw [h, hnil, hnil']
        · rw [if_pos hnil, if_neg hnil', List.append_nil] at h
          exact absurd (hmem h) hrest
      · by_cases hnil' : texts' = []
        · rw [if_neg hnil, if_pos hnil', List.append_nil] at h
          exact absurd (hmem h.symm) hrest'
        · rw [if_neg hnil, if_neg hnil'] at h
          obtain ⟨rfl, hjoin⟩ := Text.append_cons_inj hrest hrest' h
          rw [ih (fun t ht ↦ ha t (List.mem_cons_of_mem _ ht))
            (fun t ht ↦ hb t (List.mem_cons_of_mem _ ht)) hjoin]

/-! ## Separators in the fields -/

namespace StorePath

/-- A base name has no character that is illegal in a name. -/
theorem notMem_render {c : Char} (hascii : Text.utf8 [c] = [c.toUInt8])
    (hlegal : legal c.toUInt8 = false) (hbase : ∀ d < 32, c ≠ Base32.alphabet.getD d '0')
    (path : StorePath) : c ∉ path.render := by
  have hname : c ∉ path.name.text := by
    intro hmem
    have hbyte : c.toUInt8 ∈ Text.utf8 path.name.text := by
      refine List.mem_flatMap.mpr ⟨c, hmem, ?_⟩
      have : c.toUInt8 ∈ Text.utf8 [c] := hascii ▸ List.mem_singleton_self _
      simpa [Text.utf8] using this
    exact Bool.false_ne_true (hlegal.symm.trans (path.name.legal.bytes _ hbyte))
  rw [render, List.mem_append, List.mem_cons]
  rintro (h | rfl | h)
  · obtain ⟨d, hd, hc⟩ := Base32.encode_mem h
    exact hbase d hd hc
  · exact absurd hlegal (by decide)
  · exact hname h

end StorePath

namespace NarInfo

variable {dir : Dir}

private theorem semicolon_notMem_digest (hash : Sha256) : ';' ∉ hash.render := by
  have hprotocol : ';' ∉ "sha256:".toList := by decide
  intro hmem
  obtain h | h := List.mem_append.mp hmem
  · exact hprotocol h
  · have hbase : ∀ d < 32, ';' ≠ Base32.alphabet.getD d '0' := by decide
    obtain ⟨d, hd, hc⟩ := Base32.encode_mem h
    exact hbase d hd hc

private theorem semicolon_notMem_decimal (n : ℕ) : ';' ∉ Text.decimal n :=
  fun h ↦ absurd (Text.isDigit_of_mem_decimal h) (by decide)

/-- The references of a record as its fingerprint lists them. -/
private def sorted (record : NarInfo) (dir : Dir) : List Text :=
  (record.references.map dir.print).insertionSort (· ≤ ·)

private theorem sorted_perm (record : NarInfo) (dir : Dir) :
    (record.sorted dir).Perm (record.references.map dir.print) := List.perm_insertionSort _ _

private theorem sorted_eq_iff {a b : NarInfo} :
    a.sorted dir = b.sorted dir ↔ a.references.Perm b.references := by
  rw [← List.map_perm_map_iff (Dir.print_injective dir)]
  constructor
  · intro h
    exact (a.sorted_perm dir).symm.trans (h ▸ b.sorted_perm dir)
  · intro h
    have hpairwise : ∀ record : NarInfo, (record.sorted dir).Pairwise (· ≤ ·) :=
      fun record ↦ List.pairwise_insertionSort _ _
    exact ((a.sorted_perm dir).trans (h.trans (b.sorted_perm dir).symm)).eq_of_pairwise'
      (hpairwise a) (hpairwise b)

private theorem fingerprint_eq (record : NarInfo) (dir : Dir) : record.fingerprint dir
    = "1;".toList ++ (dir.text ++ '/' :: (record.storePath.render ++ ';' :: (record.narHash.render
      ++ ';' :: (Text.decimal record.narSize ++ ';' :: [','].intercalate
        (record.sorted dir))))) := by
  rw [fingerprint, fingerprintHead, Dir.print, sorted]
  simp only [List.append_assoc, List.cons_append]
  rfl

/-- Two records have one fingerprint exactly when they agree on the path, the NAR and, up to order,
the references. -/
theorem fingerprint_eq_iff (a b : NarInfo) (dir : Dir) :
    a.fingerprint dir = b.fingerprint dir ↔ a.storePath = b.storePath ∧ a.narHash = b.narHash
      ∧ a.narSize = b.narSize ∧ a.references.Perm b.references := by
  have hpath : ∀ path : StorePath, ';' ∉ path.render :=
    StorePath.notMem_render (by decide) (by decide) (by decide)
  have hstarted : ∀ record : NarInfo, ∀ text ∈ record.sorted dir,
      ∃ rest, text = (dir.text ++ ['/']) ++ rest ∧ ',' ∉ rest := by
    intro record text htext
    obtain ⟨path, -, rfl⟩ := List.mem_map.mp ((record.sorted_perm dir).mem_iff.mp htext)
    refine ⟨path.render, ?_, StorePath.notMem_render (by decide) (by decide) (by decide) path⟩
    rw [Dir.print, List.append_assoc]
    rfl
  rw [fingerprint_eq, fingerprint_eq]
  constructor
  · intro h
    rw [List.append_right_inj, List.append_right_inj, List.cons.injEq] at h
    obtain ⟨hstore, h⟩ := Text.append_cons_inj (hpath _) (hpath _) h.2
    obtain ⟨hnar, h⟩ := Text.append_cons_inj (semicolon_notMem_digest _)
      (semicolon_notMem_digest _) h
    obtain ⟨hsize, h⟩ := Text.append_cons_inj (semicolon_notMem_decimal _)
      (semicolon_notMem_decimal _) h
    have hreferences := join_injOn (by simp) (hstarted a) (hstarted b) h
    exact ⟨StorePath.render_injective hstore,
      Sha256.base32_injective (List.append_cancel_left hnar),
      PNat.coe_injective (Text.decimal_injective hsize), sorted_eq_iff.mp hreferences⟩
  · rintro ⟨hstore, hnar, hsize, hreferences⟩
    rw [hstore, hnar, hsize, sorted_eq_iff.mpr hreferences]

end NarInfo

end Bincache
