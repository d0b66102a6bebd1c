import Bincache.Core.NarInfo
import Mathlib.Data.Finset.Sort

/-!
# What a client signs against

A client keeps references as a set, prints it in strictly increasing order and verifies the
signature over that. The record keeps a list, which `fingerprint` sorts but does not thin out, so
the two texts are the same exactly when the list repeats nothing: a repeated reference makes the
signed text longer.
-/

namespace Bincache

/-! ## Joined lists -/

/-- The characters of a list of texts and of a separator after each. -/
private def weight (texts : List Text) : ℕ := (texts.map fun text ↦ text.length + 1).sum

private theorem length_join_add_one (c : Char) {texts : List Text} (h : texts ≠ []) :
    ([c].intercalate texts).length + 1 = weight texts := by
  induction texts with
  | nil => exact absurd rfl h
  | cons text texts ih =>
    cases texts with
    | nil => simp [weight]
    | cons next rest =>
      have := ih (by simp)
      rw [List.intercalate_cons_cons]
      simp only [List.length_append, List.length_cons, List.length_nil, weight, List.map_cons,
        List.sum_cons] at this ⊢
      omega

private theorem weight_eq_of_join_eq {c : Char} {a b : List Text} (ha : a ≠ []) (hb : b ≠ [])
    (h : [c].intercalate a = [c].intercalate b) : weight a = weight b := by
  rw [← length_join_add_one c ha, ← length_join_add_one c hb, h]

private theorem weight_lt_of_sublist {a b : List Text} (h : a.Sublist b) (hne : a ≠ b) :
    weight a < weight b := by
  induction h with
  | slnil => exact absurd rfl hne
  | cons text h ih =>
    rename_i l₁ l₂
    rw [weight, weight, List.map_cons, List.sum_cons, ← weight, ← weight]
    by_cases heq : l₁ = l₂
    · rw [heq]
      omega
    · have := ih heq
      omega
  | cons_cons text h ih =>
    rw [weight, weight, List.map_cons, List.map_cons, List.sum_cons, List.sum_cons, ← weight,
      ← weight]
    have := ih fun heq ↦ hne (heq ▸ rfl)
    omega

/-- A list and the set of its elements, both joined in increasing order, read the same exactly when
the list repeats nothing. -/
theorem join_sort_eq_iff (c : Char) (texts : List Text) :
    [c].intercalate (texts.insertionSort (· ≤ ·)) = [c].intercalate texts.toFinset.sort
      ↔ texts.Nodup := by
  have hsorted : (texts.insertionSort (· ≤ ·)).Pairwise (· ≤ ·) := List.pairwise_insertionSort _ _
  have hperm := List.perm_insertionSort (· ≤ ·) texts
  constructor
  · intro h
    by_contra hdup
    obtain ⟨text, htext⟩ : ∃ text, text ∈ texts := List.exists_mem_of_ne_nil texts (by
      rintro rfl
      exact hdup List.nodup_nil)
    have hdedup : texts.dedup ≠ texts := fun heq ↦ hdup (List.dedup_eq_self.mp heq)
    have hset : (texts.toFinset.sort).Perm texts.dedup :=
      (List.perm_ext_iff_of_nodup (Finset.sort_nodup _ _) (List.nodup_dedup texts)).mpr (by simp)
    have hweight := weight_eq_of_join_eq (List.ne_nil_of_mem (hperm.mem_iff.mpr htext))
      (List.ne_nil_of_mem (hset.mem_iff.mpr (List.mem_dedup.mpr htext))) h
    have hlt := weight_lt_of_sublist (List.dedup_sublist texts) hdedup
    rw [weight, weight, (hperm.map _).sum_eq, (hset.map _).sum_eq] at hweight
    rw [weight, weight] at hlt
    omega
  · intro hnodup
    have hnodup' : (texts.insertionSort (· ≤ ·)).Nodup := hperm.nodup_iff.mpr hnodup
    rw [← List.toFinset_eq_of_perm _ _ hperm, (List.toFinset_sort _ hnodup').mpr hsorted]

/-! ## Printed paths -/

theorem StorePath.render_injective : Function.Injective StorePath.render := by
  rintro ⟨hash, name⟩ ⟨hash', name'⟩ h
  rw [StorePath.render, StorePath.render] at h
  obtain ⟨hhash, hname⟩ := List.append_inj h (by rw [Hash.length_render, Hash.length_render])
  cases name
  cases name'
  cases Hash.render_injective hhash
  cases (List.cons.inj hname).2
  rfl

theorem Dir.print_injective (dir : Dir) : Function.Injective dir.print := by
  intro a b h
  rw [Dir.print, Dir.print, List.append_right_inj, List.cons.injEq] at h
  exact StorePath.render_injective h.2

namespace NarInfo

/-- The full paths of a set of references, in strictly increasing order. -/
def printSet (references : Finset StorePath) (dir : Dir) : List Text :=
  (references.image dir.print).sort

/-- The fingerprint a client computes: references as a set. -/
def clientFingerprint (record : NarInfo) (dir : Dir) : Text :=
  record.fingerprintHead dir ++ [','].intercalate (printSet record.references.toFinset dir)

/-- What a client verifies against is what is signed, exactly for a list without repetition. -/
theorem fingerprint_eq_client_iff (record : NarInfo) (dir : Dir) :
    record.fingerprint dir = record.clientFingerprint dir ↔ record.references.Nodup := by
  have hset : record.references.toFinset.image dir.print
      = (record.references.map dir.print).toFinset := by
    ext text
    simp
  rw [fingerprint, clientFingerprint, List.append_right_inj, printSet, hset, join_sort_eq_iff,
    List.nodup_map_iff (Dir.print_injective dir)]

/-- What two records must share for a client to compute one fingerprint. -/
structure SameContent (a b : NarInfo) : Prop where
  storePath : a.storePath = b.storePath
  narHash : a.narHash = b.narHash
  narSize : a.narSize = b.narSize
  references : a.references.toFinset = b.references.toFinset

theorem SameContent.clientFingerprint {a b : NarInfo} (h : SameContent a b) (dir : Dir) :
    a.clientFingerprint dir = b.clientFingerprint dir := by
  rw [NarInfo.clientFingerprint, NarInfo.clientFingerprint, fingerprintHead, fingerprintHead,
    h.storePath, h.narHash, h.narSize, h.references]

end NarInfo

end Bincache
