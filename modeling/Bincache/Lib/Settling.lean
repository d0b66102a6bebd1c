import Mathlib.Logic.Function.Basic
import Mathlib.Logic.Relator

/-!
# Writes that agree

Several writers fill one table, each with entries that are known beforehand, and any of them may be
cut off and start again. If no two of the known entries contradict each other it does not matter who
comes first, how often an entry is written, or what was left half done: once every known entry is in
the table, the table is determined by what it was at the start.

`Settles` is the part of this that holds at any moment, and a preorder, so it can be what the
writers rely on; `Settled` holds at the end.
-/

variable {α β : Type*} {writes : α → β → Prop} {f g g' h : α → Option β} {a : α} {b : β}

/-- Every entry is as it was or one that was to be written. -/
def Settles (writes : α → β → Prop) (f g : α → Option β) : Prop :=
  ∀ a, g a = f a ∨ ∃ b, writes a b ∧ g a = some b

/-- Every entry that was to be written is there. -/
def Settled (writes : α → β → Prop) (f : α → Option β) : Prop := ∀ a b, writes a b → f a = some b

theorem settles_refl (writes : α → β → Prop) (f : α → Option β) : Settles writes f f :=
  fun _ ↦ .inl rfl

theorem Settles.trans (hfg : Settles writes f g) (hgh : Settles writes g h) :
    Settles writes f h := by
  intro a
  obtain hsame | hwritten := hgh a
  · rw [hsame]
    exact hfg a
  · exact .inr hwritten

theorem settles_update [DecidableEq α] (f : α → Option β) (hwrites : writes a b) :
    Settles writes f (Function.update f a (some b)) := by
  intro a'
  by_cases ha : a' = a
  · subst ha
    exact .inr ⟨b, hwrites, Function.update_self ..⟩
  · exact .inl (Function.update_of_ne ha ..)

theorem Settles.keeps (hsettles : Settles writes f g) (hunique : Relator.RightUnique writes)
    (hwrites : writes a b) (hf : f a = some b) : g a = some b := by
  obtain hsame | ⟨b', hwrites', hg⟩ := hsettles a
  · rw [hsame, hf]
  · rw [hg, hunique hwrites' hwrites]

theorem Settles.unique (hg : Settles writes f g) (hg' : Settles writes f g')
    (hsettled : Settled writes g) (hsettled' : Settled writes g') : g = g' := by
  funext a
  by_cases hwritten : ∃ b, writes a b
  · obtain ⟨b, hwrites⟩ := hwritten
    rw [hsettled a b hwrites, hsettled' a b hwrites]
  · -- nobody writes here, so both are as at the start
    have hold : ∀ {g}, Settles writes f g → g a = f a := by
      intro g hg
      obtain hsame | ⟨b, hwrites, -⟩ := hg a
      · exact hsame
      · exact absurd ⟨b, hwrites⟩ hwritten
    rw [hold hg, hold hg']
