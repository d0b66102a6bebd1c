import Bincache.Lib.Attempt

/-!
# One program from two states

Two states that differ where a program does not look give it the same runs. `Mirrors` follows a
program from two states at once: whatever it does from the first it may also do from the second,
with the same answers, and its value and the two final states are then related. What the two states
share may change from one operation to the next, so the relation is a postcondition and not an
invariant.
-/

namespace Program

variable {Op : Type} {Ans : Op → Type} {α β σ τ : Type}

/-- From `t` the program may do whatever it does from `s`, and ends related to it. -/
def Mirrors (step : Interpretation Ans σ) (step' : Interpretation Ans τ) :
    Program Ans α → (α → σ → τ → Prop) → σ → τ → Prop
  | .done value, post, s, t => post value s t
  | .call op next, post, s, t => ∀ answer s₁, step op s answer s₁ →
      ∃ t₁, step' op t answer t₁ ∧ (next answer).Mirrors step step' post s₁ t₁

variable {step : Interpretation Ans σ} {step' : Interpretation Ans τ}
  {post post' : α → σ → τ → Prop} {s : σ} {t : τ}

theorem Mirrors.imp {program : Program Ans α} (h : program.Mirrors step step' post s t)
    (himp : ∀ value s' t', post value s' t' → post' value s' t') :
    program.Mirrors step step' post' s t := by
  induction program generalizing s t with
  | done value => exact himp value s t h
  | call op next ih =>
    intro answer s₁ hop
    obtain ⟨t₁, hop', hnext⟩ := h answer s₁ hop
    exact ⟨t₁, hop', ih answer hnext⟩

theorem Mirrors.bind {program : Program Ans α} {f : α → Program Ans β}
    {post : β → σ → τ → Prop}
    (h : program.Mirrors step step'
      (fun value s' t' ↦ (f value).Mirrors step step' post s' t') s t) :
    (program >>= f).Mirrors step step' post s t := by
  induction program generalizing s t with
  | done value => exact h
  | call op next ih =>
    intro answer s₁ hop
    obtain ⟨t₁, hop', hnext⟩ := h answer s₁ hop
    exact ⟨t₁, hop', ih answer hnext⟩

/-- What is known of every run from the first state is known of the pair. -/
theorem Mirrors.recorded {program : Program Ans α} {inv : α → σ → Prop}
    (h : program.Mirrors step step' post s t)
    (hruns : ∀ value s', program.Runs step s value s' → inv value s') :
    program.Mirrors step step' (fun value s' t' ↦ inv value s' ∧ post value s' t') s t := by
  induction program generalizing s t with
  | done value => exact ⟨hruns value s ⟨rfl, rfl⟩, h⟩
  | call op next ih =>
    intro answer s₁ hop
    obtain ⟨t₁, hop', hnext⟩ := h answer s₁ hop
    exact ⟨t₁, hop', ih answer hnext fun value s' hrun ↦ hruns value s' ⟨answer, s₁, hop, hrun⟩⟩

theorem Mirrors.runs {program : Program Ans α} {s' : σ} {value : α}
    (h : program.Mirrors step step' post s t) (hrun : program.Runs step s value s') :
    ∃ t', program.Runs step' t value t' ∧ post value s' t' := by
  induction program generalizing s t with
  | done result =>
    obtain ⟨rfl, rfl⟩ := hrun
    exact ⟨t, ⟨rfl, rfl⟩, h⟩
  | call op next ih =>
    obtain ⟨answer, s₁, hop, hnext⟩ := hrun
    obtain ⟨t₁, hop', hmirrors⟩ := h answer s₁ hop
    obtain ⟨t', hrun', hpost⟩ := ih answer hmirrors hnext
    exact ⟨t', ⟨answer, t₁, hop', hrun'⟩, hpost⟩

theorem Uses.mirrors {allowed : Op → Prop} {related : σ → τ → Prop} {program : Program Ans α}
    (h : program.Uses allowed)
    (hstep : ∀ op s t answer s', allowed op → related s t → step op s answer s' →
      ∃ t', step' op t answer t' ∧ related s' t')
    (hst : related s t) : program.Mirrors step step' (fun _ ↦ related) s t := by
  induction program generalizing s t with
  | done value => exact hst
  | call op next ih =>
    intro answer s₁ hop
    obtain ⟨t₁, hop', hst₁⟩ := hstep op s t answer s₁ h.1 hst hop
    exact ⟨t₁, hop', ih answer (h.2 answer) hst₁⟩

end Program

namespace Attempt

open Program (Mirrors)

variable {Op : Type} {Ans : Op → Type} {ε ε' α β σ τ : Type} {step : Interpretation Ans σ}
  {step' : Interpretation Ans τ} {s : σ} {t : τ} {x : Attempt Ans ε α}

theorem mirrors_bind {f : α → Attempt Ans ε β} {post : Except ε β → σ → τ → Prop}
    (h : x.run.Mirrors step step' (fun result s' t' ↦ match result with
      | .ok value => (f value).run.Mirrors step step' post s' t'
      | .error error => post (.error error) s' t') s t) :
    (x >>= f).run.Mirrors step step' post s t := by
  rw [run_bind]
  refine Mirrors.bind (h.imp ?_)
  rintro (error | value) s' t' hpost
  · exact hpost
  · exact hpost

theorem mirrors_context {f : ε → ε'} {post : Except ε' α → σ → τ → Prop}
    (h : x.run.Mirrors step step' (fun result ↦ post (result.mapError f)) s t) :
    (context f x).run.Mirrors step step' post s t := Mirrors.bind h

theorem mirrors_result {post : Except ε' (Except ε α) → σ → τ → Prop}
    (h : x.run.Mirrors step step' (fun result ↦ post (.ok result)) s t) :
    (result x : Attempt Ans ε' (Except ε α)).run.Mirrors step step' post s t := Mirrors.bind h

end Attempt
