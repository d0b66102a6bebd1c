import Bincache.Lib.Attempt

/-!
# Programs under a monitor

A monitor reads a program's operations and their answers, and says which operation it may perform
next. That a program follows one is a fact about the program alone: no state is involved, and it
holds for all answers. `Follows.safe` is what it is for — a program that is safe for one protocol,
and follows a monitor, is safe for another that asks for more, where what the monitor knows is what
the program may count on.
-/

/-- A monitor with states in `M`. -/
structure Monitor {Op : Type} (Ans : Op → Type) (M : Type) where
  allows : M → Op → Prop
  next : M → (op : Op) → Ans op → M

namespace Program

variable {Op : Type} {Ans : Op → Type} {M α β : Type} {monitor : Monitor Ans M}

/-- From a state of the monitor, the program performs only what is allowed, and `post` holds of its
value and of the state it ends in. -/
def Follows (monitor : Monitor Ans M) : Program Ans α → (α → M → Prop) → M → Prop
  | .done value, post, m => post value m
  | .call op next, post, m => monitor.allows m op
    ∧ ∀ answer, (next answer).Follows monitor post (monitor.next m op answer)

variable {post post' : α → M → Prop} {m : M}

theorem Follows.imp {program : Program Ans α} (h : program.Follows monitor post m)
    (himp : ∀ value m', post value m' → post' value m') : program.Follows monitor post' m := by
  induction program generalizing m with
  | done value => exact himp value m h
  | call op next ih => exact ⟨h.1, fun answer ↦ ih answer (h.2 answer)⟩

theorem Follows.bind {program : Program Ans α} {f : α → Program Ans β} {post : β → M → Prop}
    (h : program.Follows monitor (fun value m' ↦ (f value).Follows monitor post m') m) :
    (program >>= f).Follows monitor post m := by
  induction program generalizing m with
  | done value => exact h
  | call op next ih => exact ⟨h.1, fun answer ↦ ih answer (h.2 answer)⟩

/-! ## What following a monitor adds to safety -/

section Safe

variable {ι S S' L : Type} {P : Protocol ι S} {P' : Protocol ι S'}
  {step : ι → Interpretation Ans (S × L)} {step' : ι → Interpretation Ans (S' × L)} {i : ι} {l : L}
  {t : S'}

/-- A protocol on `S'` extends one on `S` for participant `i`, who knows `bond m` when its monitor
is in state `m`: the operations the monitor allows do to the part in `S` what they do there, and
where they keep the one protocol they keep the other. -/
structure Extends (monitor : Monitor Ans M) (P : Protocol ι S) (P' : Protocol ι S')
    (step : ι → Interpretation Ans (S × L)) (step' : ι → Interpretation Ans (S' × L))
    (part : S' → S) (bond : M → S' → Prop) (i : ι) : Prop where
  valid : ∀ t, P'.valid t → P.valid (part t)
  rely : ∀ t t', P'.rely i t t' → P.rely i (part t) (part t')
  later : ∀ m t t', bond m t → P'.rely i t t' → P'.valid t' → bond m t'
  project : ∀ op t l answer t' l', step' i op (t, l) answer (t', l') →
    step i op (part t, l) answer (part t', l')
  keep : ∀ m op t l answer t' l', monitor.allows m op → bond m t → P'.valid t →
    step' i op (t, l) answer (t', l') → P.valid (part t') →
    (∀ j, j ≠ i → P.rely j (part t) (part t')) →
      P'.valid t' ∧ (∀ j, j ≠ i → P'.rely j t t') ∧ bond (monitor.next m op answer) t'

/-- A safe program that follows the monitor is safe for the protocol that extends its own. -/
theorem Follows.safe {part : S' → S} {bond : M → S' → Prop} {post : α → L → S → Prop}
    {post' : α → M → Prop} {program : Program Ans α}
    (hextends : Extends monitor P P' step step' part bond i)
    (hfollows : program.Follows monitor post' m)
    (hsafe : program.Safe P step i post l (part t)) (hbond : bond m t) :
    program.Safe P' step' i (fun value l' t' ↦ post value l' (part t')
      ∧ ∃ m', post' value m' ∧ bond m' t') l t := by
  induction program generalizing m l t with
  | done value =>
    intro t' hrely hvalid
    exact ⟨hsafe (part t') (hextends.rely t t' hrely) (hextends.valid t' hvalid), m, hfollows,
      hextends.later m t t' hbond hrely hvalid⟩
  | call op next ih =>
    intro t₁ hrely hvalid answer t₂ l₂ hop
    have hbond₁ := hextends.later m t t₁ hbond hrely hvalid
    obtain ⟨hvalid₂, hothers, hnext⟩ := hsafe (part t₁) (hextends.rely t t₁ hrely)
      (hextends.valid t₁ hvalid) answer (part t₂) l₂ (hextends.project op t₁ l answer t₂ l₂ hop)
    obtain ⟨hvalid', hothers', hbond₂⟩ := hextends.keep m op t₁ l answer t₂ l₂ hfollows.1 hbond₁
      hvalid hop hvalid₂ hothers
    exact ⟨hvalid', hothers', ih answer (hfollows.2 answer) hnext hbond₂⟩

end Safe

end Program

/-! ## Attempts -/

namespace Attempt

open Program (Follows)

variable {Op : Type} {Ans : Op → Type} {M ε ε' α β : Type} {monitor : Monitor Ans M} {m : M}
  {x : Attempt Ans ε α}

theorem follows_bind {f : α → Attempt Ans ε β} {post : Except ε β → M → Prop}
    (h : x.run.Follows monitor (fun result m' ↦ match result with
      | .ok value => (f value).run.Follows monitor post m'
      | .error error => post (.error error) m') m) :
    (x >>= f).run.Follows monitor post m := by
  rw [run_bind]
  refine Follows.bind (h.imp ?_)
  rintro (error | value) m' h'
  · exact h'
  · exact h'

theorem follows_context {f : ε → ε'} {post : Except ε' α → M → Prop}
    (h : x.run.Follows monitor (fun result ↦ post (result.mapError f)) m) :
    (context f x).run.Follows monitor post m := h.bind

theorem follows_result {post : Except ε' (Except ε α) → M → Prop}
    (h : x.run.Follows monitor (fun result ↦ post (.ok result)) m) :
    (result x : Attempt Ans ε' (Except ε α)).run.Follows monitor post m := h.bind

theorem follows_lift {program : Program Ans α} {post : Except ε α → M → Prop}
    (h : program.Follows monitor (fun value ↦ post (.ok value)) m) :
    (lift program : Attempt Ans ε α).run.Follows monitor post m := h.bind

theorem follows_onError {cleanup : Program Ans β} {post : Except ε α → M → Prop}
    (h : x.run.Follows monitor (fun result m' ↦ match result with
      | .ok value => post (.ok value) m'
      | .error error => cleanup.Follows monitor (fun _ ↦ post (.error error)) m') m) :
    (onError x cleanup).run.Follows monitor post m := by
  refine Follows.bind (h.imp ?_)
  rintro (error | value) m' h'
  · exact Follows.bind h'
  · exact h'

end Attempt
