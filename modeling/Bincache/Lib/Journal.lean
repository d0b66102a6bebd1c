import Bincache.Lib.Monitor
import Mathlib.Algebra.BigOperators.Group.Finset.Piecewise
import Mathlib.Algebra.GroupWithZero.Nat
import Mathlib.Algebra.Order.BigOperators.Group.Finset

/-!
# Journals

A pool that keeps a journal writes down, in the order in which things happen, who performed which
operation and what the answer was. What one participant did, read off the journal, is a path of any
monitor that its program follows, whatever the others did in between: `Minds` says so of a whole
pool, and `Minds.turn` that every step keeps it.

What is counted over a journal is the sum of what is counted over each participant's part, so that a
bound a monitor gives each of them holds of the whole.
-/

/-- An operation that was performed, with its answer. -/
abbrev Deed {Op : Type} (Ans : Op → Type) : Type := Σ op, Ans op

/-- Who did what, in order. -/
abbrev Journal {Op : Type} (Ans : Op → Type) (ι : Type) : Type := List (ι × Deed Ans)

/-- The sum of what each deed counts for. -/
def tally {Op : Type} {Ans : Op → Type} (value : Deed Ans → ℕ) (deeds : List (Deed Ans)) : ℕ :=
  (deeds.map value).sum

section Tally

variable {Op : Type} {Ans : Op → Type} {value : Deed Ans → ℕ}

@[simp] theorem tally_nil : tally value [] = 0 := rfl

@[simp] theorem tally_cons (deed : Deed Ans) (deeds : List (Deed Ans)) :
    tally value (deed :: deeds) = value deed + tally value deeds := rfl

theorem tally_concat (deeds : List (Deed Ans)) (deed : Deed Ans) :
    tally value (deeds ++ [deed]) = tally value deeds + value deed := by
  rw [tally, List.map_append, List.sum_append, List.map_singleton, List.sum_singleton, tally]

end Tally

namespace Journal

variable {Op : Type} {Ans : Op → Type} {ι : Type} [DecidableEq ι] {value value' : Deed Ans → ℕ}

/-- What one participant did. -/
def own (i : ι) (journal : Journal Ans ι) : List (Deed Ans) :=
  journal.filterMap fun entry ↦ if entry.1 = i then some entry.2 else none

/-- What was done. -/
def deeds {ι : Type} (journal : Journal Ans ι) : List (Deed Ans) := journal.map Prod.snd

theorem own_concat (journal : Journal Ans ι) (i : ι) (deed : Deed Ans) :
    own i (journal ++ [(i, deed)]) = own i journal ++ [deed] := by
  rw [own, List.filterMap_append]
  simp [own]

theorem own_concat_of_ne (journal : Journal Ans ι) {i j : ι} (h : j ≠ i) (deed : Deed Ans) :
    own j (journal ++ [(i, deed)]) = own j journal := by
  rw [own, List.filterMap_append]
  simp [own, Ne.symm h]

theorem sum_tally_own (value : Deed Ans → ℕ) {ids : Finset ι} {journal : Journal Ans ι}
    (h : ∀ entry ∈ journal, entry.1 ∈ ids) :
    ∑ i ∈ ids, tally value (own i journal) = tally value journal.deeds := by
  induction journal with
  | nil => exact Finset.sum_eq_zero fun i _ ↦ rfl
  | cons entry journal ih =>
    obtain ⟨hentry, hjournal⟩ := List.forall_mem_cons.mp h
    have hown : ∀ i, tally value (own i (entry :: journal))
        = (if entry.1 = i then value entry.2 else 0) + tally value (own i journal) := by
      intro i
      rw [own, List.filterMap_cons]
      by_cases hi : entry.1 = i
      · rw [if_pos hi, if_pos hi]
        rfl
      · rw [if_neg hi, if_neg hi, Nat.zero_add]
        rfl
    rw [Finset.sum_congr rfl fun i _ ↦ hown i, Finset.sum_add_distrib, ih hjournal,
      Finset.sum_ite_eq, if_pos hentry]
    rfl

private theorem mem_ids (journal : Journal Ans ι) :
    ∀ entry ∈ journal, entry.1 ∈ (journal.map Prod.fst).toFinset :=
  fun _ hentry ↦ List.mem_toFinset.mpr (List.mem_map_of_mem hentry)

/-- What holds of each participant's part holds of the whole. -/
theorem tally_le_of_own {journal : Journal Ans ι}
    (h : ∀ i, tally value (own i journal) ≤ tally value' (own i journal)) :
    tally value journal.deeds ≤ tally value' journal.deeds := by
  rw [← sum_tally_own value (mem_ids journal), ← sum_tally_own value' (mem_ids journal)]
  exact Finset.sum_le_sum fun i _ ↦ h i

theorem tally_eq_of_own {journal : Journal Ans ι}
    (h : ∀ i, tally value (own i journal) = tally value' (own i journal)) :
    tally value journal.deeds = tally value' journal.deeds := by
  rw [← sum_tally_own value (mem_ids journal), ← sum_tally_own value' (mem_ids journal)]
  exact Finset.sum_congr rfl fun i _ ↦ h i

end Journal

/-! ## Paths of a monitor -/

namespace Monitor

variable {Op : Type} {Ans : Op → Type} {M : Type}

/-- These deeds, each of them allowed, lead a monitor from its start to this state. -/
inductive Leads (monitor : Monitor Ans M) (start : M) : List (Deed Ans) → M → Prop
  | nil : Leads monitor start [] start
  | concat {deeds : List (Deed Ans)} {m : M} {op : Op} (hleads : Leads monitor start deeds m)
      (hallows : monitor.allows m op) (answer : Ans op) :
      Leads monitor start (deeds ++ [⟨op, answer⟩]) (monitor.next m op answer)

end Monitor

/-! ## Keeping a journal -/

section Keeping

variable {Op : Type} {Ans : Op → Type} {ι S L M α : Type} {monitor : Monitor Ans M} {start m : M}
  {post : α → M → Prop} {step : ι → Interpretation Ans (S × L)} {i : ι}

/-- Does what `step` does, and writes it down. -/
def Journal.keeping (step : ι → Interpretation Ans (S × L)) :
    ι → Interpretation Ans ((S × Journal Ans ι) × L) := fun i op site answer site' ↦
  step i op (site.1.1, site.2) answer (site'.1.1, site'.2)
    ∧ site'.1.2 = site.1.2 ++ [(i, ⟨op, answer⟩)]

variable [DecidableEq ι]

open Journal (keeping own)

/-- A run of a program that follows a monitor goes on along a path of it. -/
theorem Program.Follows.runs_keeping {program : Program Ans α}
    {site site' : (S × Journal Ans ι) × L} {value : α} (h : program.Follows monitor post m)
    (hleads : monitor.Leads start (own i site.1.2) m)
    (hrun : program.Runs (keeping step i) site value site') :
    (∃ m', post value m' ∧ monitor.Leads start (own i site'.1.2) m')
      ∧ ∀ j, j ≠ i → own j site'.1.2 = own j site.1.2 := by
  induction program generalizing m site with
  | done result =>
    obtain ⟨rfl, rfl⟩ := hrun
    exact ⟨⟨m, h, hleads⟩, fun _ _ ↦ rfl⟩
  | call op next ih =>
    obtain ⟨answer, site₁, ⟨-, hjournal⟩, hnext⟩ := hrun
    have hown : own i site₁.1.2 = own i site.1.2 ++ [⟨op, answer⟩] := by
      rw [hjournal, Journal.own_concat]
    obtain ⟨hend, hothers⟩ := ih answer (h.2 answer) (hown ▸ hleads.concat h.1 answer) hnext
    refine ⟨hend, fun j hj ↦ (hothers j hj).trans ?_⟩
    rw [hjournal, Journal.own_concat_of_ne _ hj]

/-- What each participant did is a path of the monitor, which the rest of its program follows on. -/
def Minds (monitor : Monitor Ans M) (start : M) (post : α → M → Prop) (journal : Journal Ans ι)
    (threads : ι → L × Program Ans α) : Prop :=
  ∀ i, ∃ m, monitor.Leads start (own i journal) m ∧ (threads i).2.Follows monitor post m

theorem Minds.turn {pool pool' : Pool Ans ι (S × Journal Ans ι) L α}
    (h : Minds monitor start post pool.shared.2 pool.threads)
    (hstep : Pool.Step (keeping step) pool pool') :
    Minds monitor start post pool'.shared.2 pool'.threads := by
  cases hstep with
  | @turn l l' s' op next answer i hthread hop =>
    obtain ⟨-, hjournal⟩ := hop
    intro j
    obtain ⟨m, hleads, hfollows⟩ := h j
    by_cases hj : j = i
    · subst hj
      rw [hthread] at hfollows
      refine ⟨monitor.next m op answer, ?_, ?_⟩
      · dsimp only at hjournal ⊢
        rw [hjournal, Journal.own_concat]
        exact hleads.concat hfollows.1 answer
      · dsimp only
        rw [Function.update_self]
        exact hfollows.2 answer
    · refine ⟨m, ?_, ?_⟩
      · dsimp only at hjournal ⊢
        rwa [hjournal, Journal.own_concat_of_ne _ hj]
      · dsimp only
        rwa [Function.update_of_ne hj]

end Keeping
