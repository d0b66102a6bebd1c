import Mathlib.Data.List.Basic

/-!
# Folds whose steps have keys

A fold of steps that may fail, over items of which each has at most one key. The state has a
component for every key, given by when two states agree on it. If a step with a key changes that
component alone, and depends on no other, then what a whole run leaves in a component is decided by
the items of that key, in their order: other items can be moved past them, added and left out.
-/

namespace KeyedFold

variable {α σ κ ε : Type}

/-- Steps that each keep to the component of their key. -/
structure Keyed (key : α → Option κ) (agree : κ → σ → σ → Prop) (step : σ → α → Except ε σ) :
    Prop where
  refl : ∀ k s, agree k s s
  trans : ∀ {k s t u}, agree k s t → agree k t u → agree k s u
  symm : ∀ {k s t}, agree k s t → agree k t s
  /-- A step without a key does nothing, wherever it is taken. -/
  idles : ∀ {s s' a}, key a = none → step s a = .ok s' → ∀ t, step t a = .ok t
  frames : ∀ {s s' a k k'}, key a = some k → k' ≠ k → step s a = .ok s' → agree k' s s'
  /-- Whether a step succeeds does not depend on the state, and its outcome on one component. -/
  follows : ∀ {s s' a k}, key a = some k → step s a = .ok s' →
    ∀ t, ∃ t', step t a = .ok t' ∧ (agree k s t → agree k s' t')

variable {key : α → Option κ} {agree : κ → σ → σ → Prop} {step : σ → α → Except ε σ}

private theorem foldlM_cons_eq_ok {a : α} {items : List α} {s s' : σ} :
    (a :: items).foldlM step s = .ok s'
      ↔ ∃ next, step s a = .ok next ∧ items.foldlM step next = .ok s' := by
  rw [List.foldlM_cons]
  cases step s a with
  | error error => exact iff_of_false (by rintro ⟨⟩) (by rintro ⟨_, ⟨⟩, _⟩)
  | ok next => exact ⟨fun h ↦ ⟨next, rfl, h⟩, by rintro ⟨_, ⟨⟩, h⟩; exact h⟩

theorem mem_of_foldlM {items : List α} {s s' : σ} (hrun : items.foldlM step s = .ok s') :
    ∀ a ∈ items, ∃ t t', step t a = .ok t' := by
  induction items generalizing s with
  | nil => exact fun a ha ↦ absurd ha List.not_mem_nil
  | cons a items ih =>
    obtain ⟨next, hstep, hrest⟩ := foldlM_cons_eq_ok.mp hrun
    exact List.forall_mem_cons.mpr ⟨⟨s, next, hstep⟩, ih hrest⟩

namespace Keyed

variable (h : Keyed key agree step)

include h

/-- An item that goes through in one state goes through in all. -/
theorem total {a : α} {s s' : σ} (hstep : step s a = .ok s') (t : σ) :
    ∃ t', step t a = .ok t' := by
  cases hkey : key a with
  | none => exact ⟨t, h.idles hkey hstep t⟩
  | some k =>
    obtain ⟨t', ht', -⟩ := h.follows hkey hstep t
    exact ⟨t', ht'⟩

theorem exists_foldlM {items : List α} (hitems : ∀ a ∈ items, ∃ t t', step t a = .ok t') (s : σ) :
    ∃ s', items.foldlM step s = .ok s' := by
  induction items generalizing s with
  | nil => exact ⟨s, rfl⟩
  | cons a items ih =>
    obtain ⟨⟨t, t', hstep⟩, hrest⟩ := List.forall_mem_cons.mp hitems
    obtain ⟨next, hnext⟩ := h.total hstep s
    obtain ⟨s', hs'⟩ := ih hrest next
    exact ⟨s', foldlM_cons_eq_ok.mpr ⟨next, hnext, hs'⟩⟩

variable [DecidableEq κ]

/-- What a run leaves in a component is left there by the items of its key. -/
theorem foldlM_filter {items : List α} {k : κ} {s s' t : σ} (hrun : items.foldlM step s = .ok s')
    (hagree : agree k s t) :
    ∃ t', (items.filter (key · = some k)).foldlM step t = .ok t' ∧ agree k s' t' := by
  induction items generalizing s t with
  | nil =>
    cases hrun
    exact ⟨t, rfl, hagree⟩
  | cons a items ih =>
    obtain ⟨next, hstep, hrest⟩ := foldlM_cons_eq_ok.mp hrun
    by_cases hkey : key a = some k
    · obtain ⟨t₁, ht₁, hfollows⟩ := h.follows hkey hstep t
      obtain ⟨t', ht', hagree'⟩ := ih hrest (hfollows hagree)
      rw [List.filter_cons_of_pos (by simpa using hkey)]
      exact ⟨t', foldlM_cons_eq_ok.mpr ⟨t₁, ht₁, ht'⟩, hagree'⟩
    · -- an item of another key, or of none, leaves the component alone
      have hnext : agree k s next := by
        cases hother : key a with
        | none =>
          have hsame := (h.idles hother hstep s).symm.trans hstep
          exact Except.ok.inj hsame ▸ h.refl k s
        | some k' => exact h.frames hother (fun heq ↦ hkey (heq ▸ hother)) hstep
      rw [List.filter_cons_of_neg (by simpa using hkey)]
      exact ih hrest (h.trans (h.symm hnext) hagree)

/-- Items of which each was there before, or does nothing, go through, and leave in a component what
was left there before if those of its key are the same in the same order. -/
theorem foldlM_congr {items items' : List α} {s s' : σ} (hrun : items.foldlM step s = .ok s')
    (hitems : ∀ a ∈ items', a ∈ items ∨ ∀ t, step t a = .ok t) :
    ∃ t', items'.foldlM step s = .ok t' ∧ ∀ k,
      items'.filter (key · = some k) = items.filter (key · = some k) → agree k s' t' := by
  have hgo : ∀ a ∈ items', ∃ t t', step t a = .ok t' := by
    intro a ha
    obtain hmem | hidle := hitems a ha
    · exact KeyedFold.mem_of_foldlM hrun a hmem
    · exact ⟨s, s, hidle s⟩
  obtain ⟨t', ht'⟩ := h.exists_foldlM hgo s
  refine ⟨t', ht', fun k hsame ↦ ?_⟩
  obtain ⟨u, hu, hagree⟩ := h.foldlM_filter hrun (h.refl k s)
  obtain ⟨u', hu', hagree'⟩ := h.foldlM_filter ht' (h.refl k s)
  rw [hsame] at hu'
  obtain rfl := Except.ok.inj (hu.symm.trans hu')
  exact h.trans hagree (h.symm hagree')

theorem foldlM_absent {items : List α} {k : κ} {s s' : σ} (hrun : items.foldlM step s = .ok s')
    (habsent : items.filter (key · = some k) = []) : agree k s s' := by
  obtain ⟨t', ht', hagree⟩ := h.foldlM_filter hrun (h.refl k s)
  rw [habsent] at ht'
  obtain rfl := Except.ok.inj ht'
  exact h.symm hagree

end Keyed

end KeyedFold
