import Bincache.Lib.Attempt

/-!
# Programs whose operations are granted

What a program comes to when each of its operations is answered the way it hopes for. Which state
an operation is performed in does not matter then, and neither does what happens between two of
them: `Given` and `Succeeds` are about programs alone. `Given.safe` brings them to a program that
runs beside others, where an operation is granted because it did not fail.
-/

namespace Program

variable {Op : Type} {Ans : Op → Type} {α β ι S L : Type} {granted : (op : Op) → Ans op → Prop}
  {post post' : α → Prop}

/-- If every operation is granted, the value is one of `post`. -/
def Given (granted : (op : Op) → Ans op → Prop) : Program Ans α → (α → Prop) → Prop
  | .done value, post => post value
  | .call op next, post => ∀ answer, granted op answer → (next answer).Given granted post

theorem Given.imp {program : Program Ans α} (h : program.Given granted post)
    (himp : ∀ value, post value → post' value) : program.Given granted post' := by
  induction program with
  | done value => exact himp value h
  | call op next ih => exact fun answer hanswer ↦ ih answer (h answer hanswer)

theorem Given.bind {program : Program Ans α} {f : α → Program Ans β} {post : β → Prop}
    (h : program.Given granted fun value ↦ (f value).Given granted post) :
    (program >>= f).Given granted post := by
  induction program with
  | done value => exact h
  | call op next ih => exact fun answer hanswer ↦ ih answer (h answer hanswer)

/-- Among others, a program whose operations are granted and leave its own state alone comes to the
same. -/
theorem Given.safe {P : Protocol ι S} {step : ι → Interpretation Ans (S × L)} {i : ι}
    {allowed : Op → Prop} {program : Program Ans α} {l : L} {s : S}
    (h : program.Given granted post) (huses : program.Uses allowed)
    (hstep : ∀ op s l answer s' l', allowed op → P.valid s → step i op (s, l) answer (s', l') →
      granted op answer ∧ l' = l ∧ P.valid s' ∧ ∀ j, j ≠ i → P.rely j s s') :
    program.Safe P step i (fun value l' _ ↦ post value ∧ l' = l) l s := by
  induction program generalizing s with
  | done value => exact fun _ _ _ ↦ ⟨h, rfl⟩
  | call op next ih =>
    intro s₁ _ hv answer s₂ l₂ hop
    obtain ⟨hanswer, rfl, hv₂, hothers⟩ := hstep op s₁ l answer s₂ l₂ huses.1 hv hop
    exact ⟨hv₂, hothers, ih answer (h answer hanswer) (huses.2 answer)⟩

end Program

/-! ## Attempts -/

namespace Attempt

open Program (Given)

variable {Op : Type} {Ans : Op → Type} {ε ε' α β : Type} {granted : (op : Op) → Ans op → Prop}
  {x : Attempt Ans ε α} {post : α → Prop}

/-- If every operation is granted, the attempt succeeds, with a value of `post`. -/
def Succeeds (granted : (op : Op) → Ans op → Prop) (x : Attempt Ans ε α) (post : α → Prop) : Prop :=
  x.run.Given granted fun result ↦ ∃ value, result = .ok value ∧ post value

theorem succeeds_pure {value : α} (h : post value) :
    Succeeds granted (pure value : Attempt Ans ε α) post := ⟨value, rfl, h⟩

theorem succeeds_bind {f : α → Attempt Ans ε β} {post' : β → Prop} (hx : Succeeds granted x post)
    (hf : ∀ value, post value → Succeeds granted (f value) post') :
    Succeeds granted (x >>= f) post' := by
  rw [Succeeds, run_bind]
  refine Given.bind (hx.imp ?_)
  rintro _ ⟨value, rfl, hvalue⟩
  exact hf value hvalue

theorem succeeds_context {f : ε → ε'} (h : Succeeds granted x post) :
    Succeeds granted (context f x) post := by
  refine Given.bind (h.imp ?_)
  rintro _ ⟨value, rfl, hvalue⟩
  exact ⟨value, rfl, hvalue⟩

theorem succeeds_lift {program : Program Ans α} (h : program.Given granted post) :
    Succeeds granted (lift program : Attempt Ans ε α) post :=
  Given.bind (h.imp fun value hvalue ↦ ⟨value, rfl, hvalue⟩)

theorem succeeds_onError {cleanup : Program Ans β} (h : Succeeds granted x post) :
    Succeeds granted (onError x cleanup) post := by
  refine Given.bind (h.imp ?_)
  rintro _ ⟨value, rfl, hvalue⟩
  exact ⟨value, rfl, hvalue⟩

end Attempt
