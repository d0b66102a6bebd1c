import Bincache.Lib.Monitor
import Mathlib.Data.Set.Insert

/-!
# Programs that look once

A program reads the shared state in one operation. Before and after that it does only what nobody
can see, and reads only what the others leave alone once it was found. However its operations
interleave with theirs, it might as well have run alone, from the state it looked at.

`Glance` says which operations these are and what is asked of them, as a monitor. `Glance.alone` is
the reduction: among others the program is `Safe` for a protocol that keeps nothing but the states
so far, and what it returns it returns alone from one of them. With each of these states the
protocol keeps what the program had of its own at that time, so that it can also be said which came
before which.
-/

/-- The states so far, the present one among them, each with what the program had of its own then.
The others may do what `others` allows. -/
def Protocol.watching {S L : Type} (others : S → S → Prop) (hrefl : ∀ s, others s s)
    (htrans : ∀ {a b c}, others a b → others b c → others a c) :
    Protocol Unit (S × Set (S × L)) where
  valid t := ∃ l, (t.1, l) ∈ t.2
  rely _ t t' := others t.1 t'.1 ∧ t.2 ⊆ t'.2
  rely_refl _ t := ⟨hrefl t.1, Set.Subset.refl _⟩
  rely_trans hab hbc := ⟨htrans hab.1 hbc.1, Set.Subset.trans hab.2 hbc.2⟩

namespace Program

variable {Op : Type} {Ans : Op → Type} {S L M α β : Type}

/-- Operations as they are, with the states so far. -/
def watched (step : Interpretation Ans (S × L)) (_ : Unit) :
    Interpretation Ans ((S × Set (S × L)) × L) := fun op t answer t' ↦
  step op (t.1.1, t.2) answer (t'.1.1, t'.2) ∧ t'.1.2 = insert (t'.1.1, t'.2) t.1.2

/-- How a program looks once. Before it looks, its monitor is in state `none`, and after that in a
state of `M`, what was found. -/
structure Glance (step : Interpretation Ans (S × L)) (others : S → S → Prop) (M : Type) where
  /-- What may be done before the look, the look included. -/
  opening : Op → Prop
  /-- What an operation finds, if it is the look. -/
  learn : (op : Op) → Ans op → Option M
  /-- What may be done once this was found. -/
  closing : M → Op → Prop
  /-- States between which no look can tell. -/
  same : S → S → Prop
  /-- The second state is as good as the first to whoever has found this. -/
  agree : M → S → S → Prop
  refl : ∀ s, others s s
  trans : ∀ {a b c}, others a b → others b c → others a c
  same_refl : ∀ s, same s s
  same_trans : ∀ {a b c}, same a b → same b c → same a c
  /-- An operation that finds nothing can be performed in any state. -/
  before : ∀ {op s l answer s' l'}, opening op → learn op answer = none →
    step op (s, l) answer (s', l') → ∀ t, ∃ t', step op (t, l) answer (t', l') ∧ same t t'
  /-- The look finds the same in the same state. -/
  look : ∀ {op s l answer s' l' m}, opening op → learn op answer = some m →
    step op (s, l) answer (s', l') → ∀ t, same s t →
      ∃ t', step op (t, l) answer (t', l') ∧ agree m s' t'
  /-- What is done afterwards can be done in any state that is as good. -/
  after : ∀ {m op s l answer s' l'}, closing m op → step op (s, l) answer (s', l') →
    ∀ t, agree m s t → ∃ t', step op (t, l) answer (t', l') ∧ agree m s' t'
  /-- The others leave alone what was found. -/
  later : ∀ {m s s' t}, agree m s t → others s s' → agree m s' t

namespace Glance

variable {step : Interpretation Ans (S × L)} {others : S → S → Prop}
  (glance : Glance step others M)

/-- The program under its monitor. -/
def monitor : Monitor Ans (Option M) where
  allows
    | none, op => glance.opening op
    | some m, op => glance.closing m op
  next
    | none, op, answer => glance.learn op answer
    | some m, _, _ => some m

/-- The protocol of what the others may do. -/
abbrev protocol : Protocol Unit (S × Set (S × L)) := .watching others glance.refl glance.trans

/-- The program returns, alone from this state, what it returned. -/
def Alone (_ : Glance step others M) (program : Program Ans α) (l : L) (value : α) (l' : L)
    (s : S) : Prop := ∃ s', program.Runs step (s, l) value (s', l')

variable {glance} {program : Program Ans α} {l : L} {s : S}
  {past : Set (S × L)} {post : α → Option M → Prop}

/-- After the look, any state that is as good will do. -/
private theorem alone_after {m : M} (h : program.Follows glance.monitor post (some m)) :
    program.Safe glance.protocol (watched step) () (fun value l' t ↦ past ⊆ t.2
      ∧ ∀ s₀, glance.agree m s s₀ → glance.Alone program l value l' s₀) l (s, past) := by
  induction program generalizing l s past with
  | done value =>
    rintro t ⟨-, hpast⟩ -
    exact ⟨hpast, fun s₀ _ ↦ ⟨s₀, rfl, rfl⟩⟩
  | call op next ih =>
    rintro ⟨s₁, past₁⟩ ⟨hothers, hpast⟩ hvalid answer ⟨s₂, past₂⟩ l₂ ⟨hop, hpast₂⟩
    obtain rfl : past₂ = insert (s₂, l₂) past₁ := hpast₂
    refine ⟨⟨l₂, Set.mem_insert _ _⟩, fun j hj ↦ absurd rfl hj, (ih answer (h.2 answer)).imp ?_⟩
    rintro value l' t - ⟨hpast', halone⟩
    have hlater : past ⊆ insert (s₂, l₂) past₁ := Set.Subset.trans hpast (Set.subset_insert _ _)
    refine ⟨hlater.trans hpast', fun s₀ hagree ↦ ?_⟩
    obtain ⟨s₀', hop', hagree'⟩ := glance.after h.1 hop s₀ (glance.later hagree hothers)
    obtain ⟨s', hrun⟩ := halone s₀' hagree'
    exact ⟨s', answer, _, hop', hrun⟩

/-- **Reduction.** Whatever the others do in between, the program returns what it returns alone,
from one of the states so far. -/
theorem alone (h : program.Follows glance.monitor post none) :
    program.Safe glance.protocol (watched step) () (fun value l' t ↦ ∃ moment ∈ t.2,
      ∀ s₁, glance.same moment.1 s₁ → glance.Alone program l value l' s₁) l (s, past) := by
  induction program generalizing l s past with
  | done value =>
    rintro ⟨s₁, past₁⟩ - ⟨l₁, hmem⟩
    exact ⟨_, hmem, fun s₀ _ ↦ ⟨s₀, rfl, rfl⟩⟩
  | call op next ih =>
    rintro ⟨s₁, past₁⟩ - ⟨l₁, hmem⟩ answer ⟨s₂, past₂⟩ l₂ ⟨hop, hpast₂⟩
    obtain rfl : past₂ = insert (s₂, l₂) past₁ := hpast₂
    refine ⟨⟨l₂, Set.mem_insert _ _⟩, fun j hj ↦ absurd rfl hj, ?_⟩
    have hnext := h.2 answer
    rcases hlearn : glance.learn op answer with - | m
    · -- nothing was found yet, so the run alone starts one operation earlier
      have hnone : glance.monitor.next none op answer = none := hlearn
      rw [hnone] at hnext
      refine (ih answer hnext).imp ?_
      rintro value l' t - ⟨moment, hmoment, halone⟩
      refine ⟨moment, hmoment, fun s hsame ↦ ?_⟩
      obtain ⟨s', hop', hsame'⟩ := glance.before h.1 hlearn hop s
      obtain ⟨s'', hrun⟩ := halone s' (glance.same_trans hsame hsame')
      exact ⟨s'', answer, _, hop', hrun⟩
    · have hsome : glance.monitor.next none op answer = some m := hlearn
      rw [hsome] at hnext
      refine (alone_after hnext).imp ?_
      rintro value l' t - ⟨hpast, halone⟩
      refine ⟨_, hpast (Set.mem_insert_of_mem _ hmem), fun s hsame ↦ ?_⟩
      obtain ⟨s', hop', hagree⟩ := glance.look h.1 hlearn hop s hsame
      obtain ⟨s'', hrun⟩ := halone s' hagree
      exact ⟨s'', answer, _, hop', hrun⟩

end Glance

end Program
