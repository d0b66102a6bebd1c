import Mathlib.Logic.Basic

/-!
# Programs over a signature of operations

A program is a tree: either a value, or an operation together with the program that follows each of
its answers. Nothing here says what an operation does, so one program can be read in several ways —
run alone from start to end, or one operation at a time between the operations of others.

An *interpretation* gives each operation its possible answers and state changes as a relation. A
whole run of a program is `Runs`, and a run that may be cut off is `Visits`. A statement about every
run says nothing of a program that has none; `exists_runs` is the complement, for interpretations in
which every operation has an answer.
-/

/-- A program that performs operations from `Op` and returns an `α`. -/
inductive Program {Op : Type} (Ans : Op → Type) (α : Type)
  /-- The program that is finished. -/
  | done (value : α)
  /-- The program that performs an operation and goes on with its answer. -/
  | call (op : Op) (next : Ans op → Program Ans α)

/-- What one operation may do: the answers it may give from a state, each with the state after. -/
abbrev Interpretation {Op : Type} (Ans : Op → Type) (σ : Type) :=
  (op : Op) → σ → Ans op → σ → Prop

namespace Program

variable {Op : Type} {Ans : Op → Type} {α β γ σ : Type}

/-- Runs a program, then the program its value selects. -/
protected def bind : Program Ans α → (α → Program Ans β) → Program Ans β
  | .done value, f => f value
  | .call op next, f => .call op fun answer ↦ (next answer).bind f

instance : Monad (Program Ans) where
  pure := .done
  bind := Program.bind

/-- The program that performs one operation and returns its answer. -/
def perform (op : Op) : Program Ans (Ans op) := .call op .done

@[simp] theorem pure_eq_done (value : α) : (pure value : Program Ans α) = .done value := rfl

@[simp] theorem done_bind (value : α) (f : α → Program Ans β) : .done value >>= f = f value := rfl

@[simp] theorem call_bind (op : Op) (next : Ans op → Program Ans α) (f : α → Program Ans β) :
    Program.call op next >>= f = .call op fun answer ↦ next answer >>= f := rfl

@[simp] theorem perform_bind (op : Op) (f : Ans op → Program Ans β) :
    perform op >>= f = .call op f := rfl

private theorem bind_done (program : Program Ans α) : program >>= .done = program := by
  induction program with
  | done value => rfl
  | call op next ih => rw [call_bind, funext ih]

private theorem bind_assoc' (program : Program Ans α) (f : α → Program Ans β)
    (g : β → Program Ans γ) : program >>= f >>= g = program >>= fun a ↦ f a >>= g := by
  induction program with
  | done value => rfl
  | call op next ih =>
    rw [call_bind, call_bind, call_bind]
    exact congrArg _ (funext ih)

instance : LawfulMonad (Program Ans) :=
  LawfulMonad.mk' _ bind_done (fun _ _ ↦ rfl) bind_assoc'

/-! ## Whole runs -/

/-- `Runs step program s value s'`: alone and from `s`, the program may return `value` in `s'`. -/
def Runs (step : Interpretation Ans σ) : Program Ans α → σ → α → σ → Prop
  | .done value, s, result, s' => result = value ∧ s' = s
  | .call op next, s, result, s' =>
    ∃ answer s₁, step op s answer s₁ ∧ (next answer).Runs step s₁ result s'

variable {step : Interpretation Ans σ}

@[simp] theorem runs_done {value result : α} {s s' : σ} :
    (Program.done value : Program Ans α).Runs step s result s' ↔ result = value ∧ s' = s := Iff.rfl

theorem runs_call {op : Op} {next : Ans op → Program Ans α} {s s' : σ} {result : α} :
    (Program.call op next).Runs step s result s'
      ↔ ∃ answer s₁, step op s answer s₁ ∧ (next answer).Runs step s₁ result s' := Iff.rfl

theorem runs_bind {program : Program Ans α} {f : α → Program Ans β} {s s' : σ} {result : β} :
    (program >>= f).Runs step s result s'
      ↔ ∃ value s₁, program.Runs step s value s₁ ∧ (f value).Runs step s₁ result s' := by
  induction program generalizing s with
  | done value => simp [and_assoc]
  | call op next ih =>
    simp only [call_bind, runs_call, ih]
    constructor
    · rintro ⟨answer, s₁, hop, value, s₂, hnext, hrest⟩
      exact ⟨value, s₂, ⟨answer, s₁, hop, hnext⟩, hrest⟩
    · rintro ⟨value, s₂, ⟨answer, s₁, hop, hnext⟩, hrest⟩
      exact ⟨answer, s₁, hop, value, s₂, hnext, hrest⟩

/-- If every operation has an answer from every state, every program has a run. -/
theorem exists_runs (htotal : ∀ op s, ∃ answer s', step op s answer s') (program : Program Ans α)
    (s : σ) : ∃ value s', program.Runs step s value s' := by
  induction program generalizing s with
  | done value => exact ⟨value, s, rfl, rfl⟩
  | call op next ih =>
    obtain ⟨answer, s₁, hop⟩ := htotal op s
    obtain ⟨value, s₂, hrun⟩ := ih answer s₁
    exact ⟨value, s₂, answer, s₁, hop, hrun⟩

theorem Runs.mono {step' : Interpretation Ans σ} {program : Program Ans α} {s s' : σ} {value : α}
    (hstep : ∀ op s answer s', step op s answer s' → step' op s answer s')
    (hrun : program.Runs step s value s') : program.Runs step' s value s' := by
  induction program generalizing s with
  | done value => exact hrun
  | call op next ih =>
    obtain ⟨answer, s₁, hop, hnext⟩ := hrun
    exact ⟨answer, s₁, hstep op s answer s₁ hop, ih answer hnext⟩

/-- Where the steps of one interpretation can be followed by another, so can runs. -/
theorem Runs.simulate {τ : Type} {step' : Interpretation Ans τ} {related : σ → τ → Prop}
    {program : Program Ans α} {s s' : σ} {t : τ} {value : α}
    (hstep : ∀ op s t answer s', related s t → step op s answer s' →
      ∃ t', step' op t answer t' ∧ related s' t')
    (hst : related s t) (hrun : program.Runs step s value s') :
    ∃ t', program.Runs step' t value t' ∧ related s' t' := by
  induction program generalizing s t with
  | done result => exact ⟨t, ⟨hrun.1, rfl⟩, by rwa [hrun.2]⟩
  | call op next ih =>
    obtain ⟨answer, s₁, hop, hnext⟩ := hrun
    obtain ⟨t₁, hop', hst₁⟩ := hstep op s t answer s₁ hst hop
    obtain ⟨t', hrun', hst'⟩ := ih answer hst₁ hnext
    exact ⟨t', ⟨answer, t₁, hop', hrun'⟩, hst'⟩

theorem Runs.map {τ : Type} {step' : Interpretation Ans τ} {f : σ → τ} {program : Program Ans α}
    {s s' : σ} {value : α} (hstep : ∀ op s answer s', step op s answer s' →
      step' op (f s) answer (f s'))
    (hrun : program.Runs step s value s') : program.Runs step' (f s) value (f s') := by
  have hsteps : ∀ op s t answer s', t = f s → step op s answer s' →
      ∃ t', step' op t answer t' ∧ t' = f s' := by
    rintro op s _ answer s' rfl hop
    exact ⟨f s', hstep op s answer s' hop, rfl⟩
  obtain ⟨_, hrun', rfl⟩ := hrun.simulate hsteps rfl
  exact hrun'

/-- Runs a program by a function that performs its operations, each of which may refuse. -/
def evaluate (perform : (op : Op) → σ → Option (Ans op × σ)) : Program Ans α → σ → Option (α × σ)
  | .done value, s => some (value, s)
  | .call op next, s => (perform op s).bind fun (answer, s₁) ↦ (next answer).evaluate perform s₁

/-- What is evaluated is a run, if the function performs each operation in a way it may go. -/
theorem runs_of_evaluate {perform : (op : Op) → σ → Option (Ans op × σ)} {program : Program Ans α}
    {s s' : σ} {value : α}
    (hperform : ∀ op s answer s', perform op s = some (answer, s') → step op s answer s')
    (h : program.evaluate perform s = some (value, s')) : program.Runs step s value s' := by
  induction program generalizing s with
  | done result =>
    obtain ⟨rfl, rfl⟩ := Prod.mk.inj (Option.some.inj h)
    exact ⟨rfl, rfl⟩
  | call op next ih =>
    obtain ⟨⟨answer, s₁⟩, hop, hnext⟩ := Option.bind_eq_some_iff.mp h
    exact ⟨answer, s₁, hperform op s answer s₁ hop, ih answer hnext⟩

/-! ## Runs that are cut off -/

variable {s : σ}

/-- `Visits step program s s'`: cut off somewhere, a run of the program from `s` leaves `s'`. -/
def Visits (step : Interpretation Ans σ) : Program Ans α → σ → σ → Prop
  | .done _, s, s' => s' = s
  | .call op next, s, s' =>
    s' = s ∨ ∃ answer s₁, step op s answer s₁ ∧ (next answer).Visits step s₁ s'

theorem Runs.visits {program : Program Ans α} {s' : σ} {value : α}
    (hrun : program.Runs step s value s') : program.Visits step s s' := by
  induction program generalizing s with
  | done result => exact hrun.2
  | call op next ih =>
    obtain ⟨answer, s₁, hop, hnext⟩ := hrun
    exact .inr ⟨answer, s₁, hop, ih answer hnext⟩

theorem Visits.simulate {τ : Type} {step' : Interpretation Ans τ} {related : σ → τ → Prop}
    {program : Program Ans α} {s' : σ} {t : τ}
    (hstep : ∀ op s t answer s', related s t → step op s answer s' →
      ∃ t', step' op t answer t' ∧ related s' t')
    (hst : related s t) (hvisit : program.Visits step s s') :
    ∃ t', program.Visits step' t t' ∧ related s' t' := by
  induction program generalizing s t with
  | done result => exact ⟨t, rfl, by rwa [show s' = s from hvisit]⟩
  | call op next ih =>
    obtain rfl | ⟨answer, s₁, hop, hnext⟩ := hvisit
    · exact ⟨t, .inl rfl, hst⟩
    · obtain ⟨t₁, hop', hst₁⟩ := hstep op s t answer s₁ hst hop
      obtain ⟨t', hvisit', hst'⟩ := ih answer hst₁ hnext
      exact ⟨t', .inr ⟨answer, t₁, hop', hvisit'⟩, hst'⟩

theorem Visits.map {τ : Type} {step' : Interpretation Ans τ} {f : σ → τ} {program : Program Ans α}
    {s' : σ} (hstep : ∀ op s answer s', step op s answer s' → step' op (f s) answer (f s'))
    (hvisit : program.Visits step s s') : program.Visits step' (f s) (f s') := by
  have hsteps : ∀ op s t answer s', t = f s → step op s answer s' →
      ∃ t', step' op t answer t' ∧ t' = f s' := by
    rintro op s _ answer s' rfl hop
    exact ⟨f s', hstep op s answer s' hop, rfl⟩
  obtain ⟨_, hvisit', rfl⟩ := hvisit.simulate hsteps rfl
  exact hvisit'

/-! ## Operations a program may perform -/

/-- Every operation the program can reach satisfies `allowed`. -/
def Uses (allowed : Op → Prop) : Program Ans α → Prop
  | .done _ => True
  | .call op next => allowed op ∧ ∀ answer, (next answer).Uses allowed

variable {allowed : Op → Prop}

@[simp] theorem uses_done {value : α} : (Program.done value : Program Ans α).Uses allowed :=
  trivial

@[simp] theorem uses_call {op : Op} {next : Ans op → Program Ans α} :
    (Program.call op next).Uses allowed ↔ allowed op ∧ ∀ answer, (next answer).Uses allowed :=
  Iff.rfl

theorem Uses.bind {program : Program Ans α} {f : α → Program Ans β} (h : program.Uses allowed)
    (hf : ∀ value, (f value).Uses allowed) : (program >>= f).Uses allowed := by
  induction program with
  | done value => exact hf value
  | call op next ih => exact ⟨h.1, fun answer ↦ ih answer (h.2 answer)⟩

theorem Uses.imp {allowed' : Op → Prop} {program : Program Ans α} (h : program.Uses allowed)
    (himp : ∀ op, allowed op → allowed' op) : program.Uses allowed' := by
  induction program with
  | done value => trivial
  | call op next ih => exact ⟨himp op h.1, fun answer ↦ ih answer (h.2 answer)⟩

theorem uses_any (program : Program Ans α) : program.Uses fun _ ↦ True := by
  induction program with
  | done value => trivial
  | call op next ih => exact ⟨trivial, ih⟩

/-- It is enough that the operations the program may perform have answers. -/
theorem Uses.exists_runs {program : Program Ans α} (h : program.Uses allowed)
    (htotal : ∀ op, allowed op → ∀ s, ∃ answer s', step op s answer s') (s : σ) :
    ∃ value s', program.Runs step s value s' := by
  induction program generalizing s with
  | done value => exact ⟨value, s, rfl, rfl⟩
  | call op next ih =>
    obtain ⟨answer, s₁, hop⟩ := htotal op h.1 s
    obtain ⟨value, s₂, hrun⟩ := ih answer (h.2 answer) s₁
    exact ⟨value, s₂, answer, s₁, hop, hrun⟩

/-- What every allowed operation keeps, every run keeps wherever it is cut off. -/
theorem Uses.visits {program : Program Ans α} {inv : σ → Prop} {s s' : σ}
    (h : program.Uses allowed)
    (hstep : ∀ op s answer s', allowed op → inv s → step op s answer s' → inv s')
    (hs : inv s) (hvisit : program.Visits step s s') : inv s' := by
  induction program generalizing s with
  | done value => rwa [hvisit]
  | call op next ih =>
    obtain rfl | ⟨answer, s₁, hop, hnext⟩ := hvisit
    · exact hs
    · exact ih answer (h.2 answer) (hstep op s answer s₁ h.1 hs hop) hnext

theorem Uses.runs {program : Program Ans α} {inv : σ → Prop} {s s' : σ} {value : α}
    (h : program.Uses allowed)
    (hstep : ∀ op s answer s', allowed op → inv s → step op s answer s' → inv s')
    (hs : inv s) (hrun : program.Runs step s value s') : inv s' :=
  h.visits hstep hs hrun.visits

end Program
