import Bincache.Lib.Interference

/-!
# Programs that can fail

A program that returns an `Except` is a program in the exception monad over programs. Each rule
below carries one of the readings of a program — its runs, its weakest precondition, the operations
it uses, its safety among others — through one way of composing such programs.
-/

/-- A program that returns an `α` or fails with an `ε`. -/
abbrev Attempt {Op : Type} (Ans : Op → Type) (ε α : Type) := ExceptT ε (Program Ans) α

namespace Attempt

variable {Op : Type} {Ans : Op → Type} {ε ε' α β : Type}

/-- Says what a failure means to the caller. -/
def context (f : ε → ε') (x : Attempt Ans ε α) : Attempt Ans ε' α :=
  ExceptT.mk (x.run >>= fun result ↦ .done (result.mapError f))

/-- Hands a failure to the caller as a value. -/
def result (x : Attempt Ans ε α) : Attempt Ans ε' (Except ε α) :=
  ExceptT.mk (x.run >>= fun result ↦ .done (.ok result))

/-- Runs a program that cannot fail. -/
def lift (program : Program Ans α) : Attempt Ans ε α :=
  ExceptT.mk (program >>= fun value ↦ .done (.ok value))

/-- Runs a clean-up, whose own outcome is ignored, if the attempt fails. -/
def onError (x : Attempt Ans ε α) (cleanup : Program Ans β) : Attempt Ans ε α :=
  ExceptT.mk (x.run >>= fun
    | .ok value => .done (.ok value)
    | .error error => cleanup >>= fun _ ↦ .done (.error error))

/-- An answer that is already there. -/
def ofExcept (result : Except ε α) : Attempt Ans ε α := ExceptT.mk (.done result)

/-- What follows the result of an attempt: the rest if it succeeded, nothing if it failed. -/
def andThen (f : α → Program Ans (Except ε β)) : Except ε α → Program Ans (Except ε β)
  | .ok value => f value
  | .error error => .done (.error error)

@[simp] theorem run_pure (value : α) :
    (pure value : Attempt Ans ε α).run = .done (.ok value) := rfl

@[simp] theorem run_throw (error : ε) :
    (throw error : Attempt Ans ε α).run = .done (.error error) := rfl

@[simp] theorem run_ofExcept (result : Except ε α) :
    (ofExcept result : Attempt Ans ε α).run = .done result := rfl

theorem run_bind (x : Attempt Ans ε α) (f : α → Attempt Ans ε β) :
    (x >>= f).run = x.run >>= andThen fun value ↦ (f value).run := by
  rw [ExceptT.run_bind]
  exact congrArg _ (funext fun result ↦ by cases result <;> rfl)

@[simp] theorem run_context (f : ε → ε') (x : Attempt Ans ε α) :
    (context f x).run = x.run >>= fun result ↦ .done (result.mapError f) := rfl

@[simp] theorem run_result (x : Attempt Ans ε α) :
    (result x : Attempt Ans ε' (Except ε α)).run = x.run >>= fun result ↦ .done (.ok result) := rfl

@[simp] theorem run_lift (program : Program Ans α) :
    (lift program : Attempt Ans ε α).run = program >>= fun value ↦ .done (.ok value) := rfl

@[simp] theorem run_map (f : α → β) (x : Attempt Ans ε α) :
    (f <$> x).run = x.run >>= fun result ↦ .done (result.map f) := by
  rw [ExceptT.run_map, map_eq_pure_bind]
  exact congrArg _ (funext fun result ↦ by cases result <;> rfl)

@[simp] theorem andThen_ok (f : α → Program Ans (Except ε β)) (value : α) :
    andThen f (.ok value) = f value := rfl

@[simp] theorem andThen_error (f : α → Program Ans (Except ε β)) (error : ε) :
    andThen f (.error error) = .done (.error error) := rfl

/-! ## What a failure means to a caller's caller -/

theorem context_context {ε'' : Type} (f : ε → ε') (g : ε' → ε'') (x : Attempt Ans ε α) :
    context g (context f x) = context (fun error ↦ g (f error)) x := by
  refine ExceptT.ext ?_
  rw [run_context, run_context, run_context, bind_assoc]
  refine congrArg _ (funext fun result ↦ ?_)
  cases result with
  | ok value => rfl
  | error error => rfl

theorem context_bind (g : ε → ε') (x : Attempt Ans ε α) (f : α → Attempt Ans ε β) :
    context g (x >>= f) = context g x >>= fun value ↦ context g (f value) := by
  refine ExceptT.ext ?_
  rw [run_context, run_bind, run_bind, run_context, bind_assoc, bind_assoc]
  refine congrArg _ (funext fun result ↦ ?_)
  cases result with
  | ok value => rfl
  | error error => rfl

/-! ## Operations an attempt uses -/

section Uses

open Program (Uses)

variable {allowed : Op → Prop} {x : Attempt Ans ε α}

theorem uses_bind {f : α → Attempt Ans ε β} (hx : x.run.Uses allowed)
    (hf : ∀ value, (f value).run.Uses allowed) : (x >>= f).run.Uses allowed := by
  rw [run_bind]
  refine hx.bind ?_
  rintro (error | value)
  · trivial
  · exact hf value

theorem uses_map {f : α → β} (hx : x.run.Uses allowed) : (f <$> x).run.Uses allowed := by
  rw [run_map]
  exact hx.bind fun _ ↦ trivial

theorem uses_context {f : ε → ε'} (hx : x.run.Uses allowed) : (context f x).run.Uses allowed :=
  hx.bind fun _ ↦ trivial

theorem uses_result (hx : x.run.Uses allowed) :
    (result x : Attempt Ans ε' (Except ε α)).run.Uses allowed :=
  hx.bind fun _ ↦ trivial

theorem uses_lift {program : Program Ans α} (h : program.Uses allowed) :
    (lift program : Attempt Ans ε α).run.Uses allowed :=
  h.bind fun _ ↦ trivial

theorem uses_onError {cleanup : Program Ans β} (hx : x.run.Uses allowed)
    (hcleanup : cleanup.Uses allowed) : (onError x cleanup).run.Uses allowed := by
  refine hx.bind ?_
  rintro (error | value)
  · exact hcleanup.bind fun _ ↦ trivial
  · trivial

end Uses

/-! ## Attempts among others -/

section Safe

variable {ι S L : Type} {P : Protocol ι S} {step : ι → Interpretation Ans (S × L)} {i : ι} {l : L}
  {s : S}

open Program (safe_of_later)

private theorem safe_pureMap {program : Program Ans α} {g : α → β} {post : β → L → S → Prop}
    (h : program.Safe P step i (fun value ↦ post (g value)) l s) :
    (program >>= fun value ↦ .done (g value)).Safe P step i post l s := by
  induction program generalizing l s with
  | done value => exact h
  | call op next ih =>
    intro s₁ hs₁ hv answer s₂ l₂ hop
    obtain ⟨hv₂, hothers, hnext⟩ := h s₁ hs₁ hv answer s₂ l₂ hop
    exact ⟨hv₂, hothers, ih answer hnext⟩

theorem safe_map {x : Attempt Ans ε α} {f : α → β} {post : Except ε β → L → S → Prop}
    (h : x.run.Safe P step i (fun result ↦ post (result.map f)) l s) :
    (f <$> x).run.Safe P step i post l s := by
  rw [run_map]
  exact safe_pureMap h

theorem safe_context {x : Attempt Ans ε α} {f : ε → ε'} {post : Except ε' α → L → S → Prop}
    (h : x.run.Safe P step i (fun result ↦ post (result.mapError f)) l s) :
    (context f x).run.Safe P step i post l s := safe_pureMap h

theorem safe_result {x : Attempt Ans ε α} {post : Except ε' (Except ε α) → L → S → Prop}
    (h : x.run.Safe P step i (fun result ↦ post (.ok result)) l s) :
    (result x : Attempt Ans ε' (Except ε α)).run.Safe P step i post l s := safe_pureMap h

theorem safe_lift {program : Program Ans α} {post : Except ε α → L → S → Prop}
    (h : program.Safe P step i (fun value ↦ post (.ok value)) l s) :
    (lift program : Attempt Ans ε α).run.Safe P step i post l s := safe_pureMap h

/-- The rest of the program goes on from a success, and a failure is final. -/
theorem safe_bind {x : Attempt Ans ε α} {f : α → Attempt Ans ε β}
    {post : Except ε β → L → S → Prop}
    (h : x.run.Safe P step i (fun result l' s' ↦ match result with
      | .ok value => (f value).run.Safe P step i post l' s'
      | .error error => post (.error error) l' s') l s) :
    (x >>= f).run.Safe P step i post l s := by
  rw [run_bind]
  generalize x.run = program at h
  induction program generalizing l s with
  | done result =>
    cases result with
    | ok value => exact safe_of_later h
    | error error => exact h
  | call op next ih =>
    intro s₁ hs₁ hv answer s₂ l₂ hop
    obtain ⟨hv₂, hothers, hnext⟩ := h s₁ hs₁ hv answer s₂ l₂ hop
    exact ⟨hv₂, hothers, ih answer hnext⟩

theorem safe_onError {x : Attempt Ans ε α} {cleanup : Program Ans β}
    {post : Except ε α → L → S → Prop}
    (h : x.run.Safe P step i (fun result l' s' ↦ match result with
      | .ok value => post (.ok value) l' s'
      | .error error => cleanup.Safe P step i (fun _ ↦ post (.error error)) l' s') l s) :
    (onError x cleanup).run.Safe P step i post l s := by
  change Program.Safe P step i (x.run >>= _) post l s
  generalize x.run = program at h
  induction program generalizing l s with
  | done result =>
    cases result with
    | ok value => exact h
    | error error => exact safe_pureMap (safe_of_later h)
  | call op next ih =>
    intro s₁ hs₁ hv answer s₂ l₂ hop
    obtain ⟨hv₂, hothers, hnext⟩ := h s₁ hs₁ hv answer s₂ l₂ hop
    exact ⟨hv₂, hothers, ih answer hnext⟩

end Safe

end Attempt
