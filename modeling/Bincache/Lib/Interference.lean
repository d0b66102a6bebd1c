import Bincache.Lib.Program
import Mathlib.Logic.Function.Basic
import Mathlib.Logic.Relation

/-!
# Programs under interference

Several programs run over one shared state, each with local state of its own, and the operations of
different programs interleave in any order. A `Protocol` says what holds of the shared state between
any two operations (`valid`) and, for each participant, which changes the others may make under it
(`rely`). A program is `Safe` for a participant when each of its operations, performed in any state
the others may have left, keeps `valid` and stays within what every other participant relies on.

Safety is checked one program at a time and composes with `bind`; `Pool.Ok.steps` then gives the
invariant and every program's postcondition for all interleavings at once. This is the only
induction over interleavings a development needs.
-/

/-- The contract under which the participants `ι` share a state `S`. -/
structure Protocol (ι S : Type) where
  /-- What holds of the shared state between two operations. -/
  valid : S → Prop
  /-- The changes participant `i` tolerates. -/
  rely : ι → S → S → Prop
  rely_refl : ∀ i s, rely i s s
  rely_trans : ∀ {i a b c}, rely i a b → rely i b c → rely i a c

/-- The protocol of a program that nobody interferes with and that has an invariant to keep. -/
def Protocol.guarded {S : Type} (valid : S → Prop) : Protocol Unit S where
  valid := valid
  rely _ s s' := s = s'
  rely_refl _ _ := rfl
  rely_trans := Eq.trans

/-- The protocol of a program that nobody interferes with. -/
def Protocol.alone (S : Type) : Protocol Unit S where
  valid _ := True
  rely _ s s' := s = s'
  rely_refl _ _ := rfl
  rely_trans := Eq.trans

namespace Program

variable {Op : Type} {Ans : Op → Type} {α β ι S L : Type}

/-- Run by participant `i` from local state `l` and any state the others may make of `s`, the
program keeps the protocol, and `post` holds when it is done. -/
def Safe (P : Protocol ι S) (step : ι → Interpretation Ans (S × L)) (i : ι) :
    Program Ans α → (α → L → S → Prop) → L → S → Prop
  | .done value, post, l, s => ∀ s', P.rely i s s' → P.valid s' → post value l s'
  | .call op next, post, l, s =>
    ∀ s₁, P.rely i s s₁ → P.valid s₁ → ∀ answer s₂ l₂, step i op (s₁, l) answer (s₂, l₂) →
      P.valid s₂ ∧ (∀ j, j ≠ i → P.rely j s₁ s₂) ∧ (next answer).Safe P step i post l₂ s₂

variable {P : Protocol ι S} {step : ι → Interpretation Ans (S × L)} {i : ι}
  {post post' : α → L → S → Prop} {l : L} {s s' : S}

theorem Safe.later {program : Program Ans α} (h : program.Safe P step i post l s)
    (hrely : P.rely i s s') : program.Safe P step i post l s' := by
  cases program with
  | done value => exact fun s'' hs'' hv ↦ h s'' (P.rely_trans hrely hs'') hv
  | call op next => exact fun s'' hs'' hv ↦ h s'' (P.rely_trans hrely hs'') hv

/-- To show safety, the state may be taken valid and as late as the others can make it. -/
theorem safe_of_later {program : Program Ans α}
    (h : ∀ s', P.rely i s s' → P.valid s' → program.Safe P step i post l s') :
    program.Safe P step i post l s := by
  cases program with
  | done value => exact fun s' hs' hv ↦ h s' hs' hv s' (P.rely_refl i s') hv
  | call op next => exact fun s' hs' hv ↦ h s' hs' hv s' (P.rely_refl i s') hv

theorem Safe.imp {program : Program Ans α} (h : program.Safe P step i post l s)
    (himp : ∀ value l' s', P.valid s' → post value l' s' → post' value l' s') :
    program.Safe P step i post' l s := by
  induction program generalizing l s with
  | done value => exact fun s' hs' hv ↦ himp value l s' hv (h s' hs' hv)
  | call op next ih =>
    intro s₁ hs₁ hv answer s₂ l₂ hop
    obtain ⟨hv₂, hothers, hnext⟩ := h s₁ hs₁ hv answer s₂ l₂ hop
    exact ⟨hv₂, hothers, ih answer hnext⟩

theorem Safe.refine {step' : ι → Interpretation Ans (S × L)} {program : Program Ans α}
    (h : program.Safe P step i post l s)
    (hstep : ∀ op s answer s', step' i op s answer s' → step i op s answer s') :
    program.Safe P step' i post l s := by
  induction program generalizing l s with
  | done value => exact h
  | call op next ih =>
    intro s₁ hs₁ hv answer s₂ l₂ hop
    obtain ⟨hv₂, hothers, hnext⟩ := h s₁ hs₁ hv answer s₂ l₂ (hstep op _ answer _ hop)
    exact ⟨hv₂, hothers, ih answer hnext⟩

theorem Safe.bind {program : Program Ans α} {f : α → Program Ans β} {post : β → L → S → Prop}
    (h : program.Safe P step i (fun value l' s' ↦ (f value).Safe P step i post l' s') l s) :
    (program >>= f).Safe P step i post l s := by
  induction program generalizing l s with
  | done value => exact safe_of_later h
  | call op next ih =>
    intro s₁ hs₁ hv answer s₂ l₂ hop
    obtain ⟨hv₂, hothers, hnext⟩ := h s₁ hs₁ hv answer s₂ l₂ hop
    exact ⟨hv₂, hothers, ih answer hnext⟩

/-- A run nobody interferes with keeps the protocol's invariant wherever it is cut off. -/
theorem Safe.visits {program : Program Ans α} {l' : L} (h : program.Safe P step i post l s)
    (hv : P.valid s) (hvisit : program.Visits (step i) (s, l) (s', l')) : P.valid s' := by
  induction program generalizing l s with
  | done value => rwa [(Prod.mk.inj hvisit).1]
  | call op next ih =>
    obtain hstop | ⟨answer, ⟨s₁, l₁⟩, hop, hnext⟩ := hvisit
    · rwa [(Prod.mk.inj hstop).1]
    · obtain ⟨hv₁, -, hsafe⟩ := h s (P.rely_refl i s) hv answer s₁ l₁ hop
      exact ih answer hsafe hv₁ hnext

theorem Safe.runs {program : Program Ans α} {value : α} {l' : L}
    (h : program.Safe P step i post l s) (hv : P.valid s)
    (hrun : program.Runs (step i) (s, l) value (s', l')) : P.valid s' ∧ post value l' s' := by
  induction program generalizing l s with
  | done result =>
    obtain ⟨rfl, hs⟩ := hrun
    obtain ⟨rfl, rfl⟩ := Prod.mk.inj hs
    exact ⟨hv, h s' (P.rely_refl i s') hv⟩
  | call op next ih =>
    obtain ⟨answer, ⟨s₁, l₁⟩, hop, hnext⟩ := hrun
    obtain ⟨hv₁, -, hsafe⟩ := h s (P.rely_refl i s) hv answer s₁ l₁ hop
    exact ih answer hsafe hv₁ hnext

/-- Of a program nobody interferes with, every operation starts where the last one ended. -/
theorem safe_alone_call {step : Unit → Interpretation Ans (S × L)} {op : Op}
    {next : Ans op → Program Ans α} :
    (Program.call op next).Safe (.alone S) step () post l s
      ↔ ∀ answer s₂ l₂, step () op (s, l) answer (s₂, l₂) →
          (next answer).Safe (.alone S) step () post l₂ s₂ := by
  constructor
  · exact fun h answer s₂ l₂ hop ↦ (h s rfl trivial answer s₂ l₂ hop).2.2
  · rintro h s₁ rfl - answer s₂ l₂ hop
    exact ⟨trivial, fun j hj ↦ absurd rfl hj, h answer s₂ l₂ hop⟩

theorem safe_alone_done {step : Unit → Interpretation Ans (S × L)} {value : α} :
    (Program.done value : Program Ans α).Safe (.alone S) step () post l s ↔ post value l s :=
  ⟨fun h ↦ h s rfl trivial, by rintro h s' rfl -; exact h⟩

theorem safe_guarded_call {valid : S → Prop} {step : Unit → Interpretation Ans (S × L)} {op : Op}
    {next : Ans op → Program Ans α} (h : valid s → ∀ answer s₂ l₂,
      step () op (s, l) answer (s₂, l₂) →
        valid s₂ ∧ (next answer).Safe (.guarded valid) step () post l₂ s₂) :
    (Program.call op next).Safe (.guarded valid) step () post l s := by
  rintro s₁ rfl hv answer s₂ l₂ hop
  obtain ⟨hv₂, hnext⟩ := h hv answer s₂ l₂ hop
  exact ⟨hv₂, fun j hj ↦ absurd rfl hj, hnext⟩

theorem safe_guarded_done {valid : S → Prop} {step : Unit → Interpretation Ans (S × L)} {value : α}
    (h : valid s → post value l s) :
    (Program.done value : Program Ans α).Safe (.guarded valid) step () post l s := by
  rintro s' rfl hv
  exact h hv

/-- Safety of a program nobody interferes with is a statement about its whole runs. -/
theorem safe_alone_iff {step : Unit → Interpretation Ans (S × L)} {program : Program Ans α} :
    program.Safe (.alone S) step () post l s ↔ ∀ value s' l',
      program.Runs (step ()) (s, l) value (s', l') → post value l' s' := by
  refine ⟨fun h value s' l' hrun ↦ (h.runs trivial hrun).2, fun h ↦ ?_⟩
  induction program generalizing l s with
  | done value => exact safe_alone_done.mpr (h value s l ⟨rfl, rfl⟩)
  | call op next ih =>
    refine safe_alone_call.mpr fun answer s₂ l₂ hop ↦ ih answer fun value s' l' hrun ↦ ?_
    exact h value s' l' ⟨answer, (s₂, l₂), hop, hrun⟩

/-- A program whose operations keep the protocol from every valid state is safe everywhere: nothing
it learns matters. -/
theorem Uses.safe {allowed : Op → Prop} {program : Program Ans α} (h : program.Uses allowed)
    (hstep : ∀ op s l answer s' l', allowed op → P.valid s → step i op (s, l) answer (s', l') →
      P.valid s' ∧ ∀ j, j ≠ i → P.rely j s s') :
    program.Safe P step i (fun _ _ _ ↦ True) l s := by
  induction program generalizing l s with
  | done value => exact fun _ _ _ ↦ trivial
  | call op next ih =>
    intro s₁ _ hv answer s₂ l₂ hop
    obtain ⟨hv₂, hothers⟩ := hstep op s₁ l answer s₂ l₂ h.1 hv hop
    exact ⟨hv₂, hothers, ih answer (h.2 answer)⟩

end Program

/-! ## Pools -/

/-- Participants over a shared state, each with its local state and the rest of its program. -/
structure Pool {Op : Type} (Ans : Op → Type) (ι S L α : Type) where
  shared : S
  threads : ι → L × Program Ans α

namespace Pool

variable {Op : Type} {Ans : Op → Type} {α ι S L : Type}

/-- The shared state is valid and every thread is safe in it. -/
structure Ok (P : Protocol ι S) (step : ι → Interpretation Ans (S × L))
    (post : ι → α → L → S → Prop) (pool : Pool Ans ι S L α) : Prop where
  valid : P.valid pool.shared
  safe : ∀ i, (pool.threads i).2.Safe P step i (post i) (pool.threads i).1 pool.shared

variable {P : Protocol ι S} {step : ι → Interpretation Ans (S × L)} {post : ι → α → L → S → Prop}
  {pool pool' : Pool Ans ι S L α}

theorem Ok.post_of_done (h : pool.Ok P step post) {i : ι} {l : L} {value : α}
    (hdone : pool.threads i = (l, .done value)) : post i value l pool.shared := by
  have hsafe := h.safe i
  rw [hdone] at hsafe
  exact hsafe pool.shared (P.rely_refl i _) h.valid

variable [DecidableEq ι]

/-- Participant `i` performs its next operation. -/
inductive Step (step : ι → Interpretation Ans (S × L)) : Pool Ans ι S L α → Pool Ans ι S L α → Prop
  | turn {pool : Pool Ans ι S L α} {l l' : L} {s' : S} {op : Op} {next : Ans op → Program Ans α}
      {answer : Ans op} (i : ι) (hthread : pool.threads i = (l, .call op next))
      (hop : step i op (pool.shared, l) answer (s', l')) :
      Step step pool ⟨s', Function.update pool.threads i (l', next answer)⟩

abbrev Steps (step : ι → Interpretation Ans (S × L)) :
    Pool Ans ι S L α → Pool Ans ι S L α → Prop :=
  Relation.ReflTransGen (Step step)

theorem Ok.turn (h : pool.Ok P step post) (hstep : Step step pool pool') :
    pool'.Ok P step post := by
  cases hstep with
  | @turn l l' s' op next answer i hthread hop =>
    have hsafe := h.safe i
    rw [hthread] at hsafe
    obtain ⟨hvalid, hothers, hnext⟩ :=
      hsafe pool.shared (P.rely_refl i _) h.valid answer s' l' hop
    refine ⟨hvalid, fun j ↦ ?_⟩
    by_cases hj : j = i
    · subst hj
      simpa using hnext
    · simpa [hj] using (h.safe j).later (hothers j hj)

theorem Ok.steps (h : pool.Ok P step post) (hsteps : Steps step pool pool') :
    pool'.Ok P step post := by
  induction hsteps with
  | refl => exact h
  | tail _ hstep ih => exact ih.turn hstep

theorem steps_of_runs {i : ι} {program : Program Ans α} {l l' : L} {s' : S} {value : α}
    (hthread : pool.threads i = (l, program))
    (hrun : program.Runs (step i) (pool.shared, l) value (s', l')) :
    Steps step pool ⟨s', Function.update pool.threads i (l', .done value)⟩ := by
  induction program generalizing pool l with
  | done result =>
    obtain ⟨rfl, hs⟩ := hrun
    obtain ⟨rfl, rfl⟩ := Prod.mk.inj hs
    rw [← hthread, Function.update_eq_self]
  | call op next ih =>
    obtain ⟨answer, ⟨s₁, l₁⟩, hop, hnext⟩ := hrun
    refine Relation.ReflTransGen.head (Step.turn i hthread hop) ?_
    have := @ih answer ⟨s₁, Function.update pool.threads i (l₁, next answer)⟩ l₁ (by simp) hnext
    simpa using this

theorem steps_of_visits {i : ι} {program : Program Ans α} {l l' : L} {s' : S}
    (hthread : pool.threads i = (l, program))
    (hvisit : program.Visits (step i) (pool.shared, l) (s', l')) :
    ∃ rest, Steps step pool ⟨s', Function.update pool.threads i (l', rest)⟩ := by
  induction program generalizing pool l with
  | done result =>
    obtain ⟨rfl, rfl⟩ := Prod.mk.inj hvisit
    refine ⟨.done result, ?_⟩
    rw [← hthread, Function.update_eq_self]
  | call op next ih =>
    obtain hstop | ⟨answer, ⟨s₁, l₁⟩, hop, hnext⟩ := hvisit
    · obtain ⟨rfl, rfl⟩ := Prod.mk.inj hstop
      refine ⟨.call op next, ?_⟩
      rw [← hthread, Function.update_eq_self]
    · let turned : Pool Ans ι S L α := ⟨s₁, Function.update pool.threads i (l₁, next answer)⟩
      have hturned : turned.threads i = (l₁, next answer) := Function.update_self ..
      obtain ⟨rest, hsteps⟩ := ih answer hturned hnext
      rw [Function.update_idem] at hsteps
      exact ⟨rest, .head (Step.turn i hthread hop) hsteps⟩

/-- Where the operations of each thread can be followed on another state, so can a whole pool, among
further participants who do nothing. -/
theorem Steps.simulate {κ T : Type} [DecidableEq κ] {step' : κ → Interpretation Ans (T × L)}
    {f : ι → κ} (hf : Function.Injective f) {related : S → T → Prop}
    (hstep : ∀ i op s l answer s' l' t, related s t → step i op (s, l) answer (s', l') →
      ∃ t', step' (f i) op (t, l) answer (t', l') ∧ related s' t')
    {other : Pool Ans κ T L α} (hst : related pool.shared other.shared)
    (hthreads : ∀ i, other.threads (f i) = pool.threads i) (hsteps : Steps step pool pool') :
    ∃ other', Steps step' other other' ∧ related pool'.shared other'.shared
      ∧ (∀ i, other'.threads (f i) = pool'.threads i)
      ∧ ∀ k, (∀ i, k ≠ f i) → other'.threads k = other.threads k := by
  induction hsteps with
  | refl => exact ⟨other, .refl, hst, hthreads, fun _ _ ↦ rfl⟩
  | tail _ hturn ih =>
    obtain ⟨other', hsteps', hst', hthreads', hidle⟩ := ih
    cases hturn with
    | @turn l l' s' op next answer i hthread hop =>
      obtain ⟨t', hop', hst''⟩ := hstep i op _ l answer s' l' _ hst' hop
      refine ⟨_, hsteps'.tail (.turn (f i) ((hthreads' i).trans hthread) hop'), hst'',
        fun j ↦ ?_, fun k hk ↦ ?_⟩
      · dsimp only
        by_cases hj : j = i
        · subst hj
          rw [Function.update_self, Function.update_self]
        · rw [Function.update_of_ne hj, Function.update_of_ne (hf.ne hj)]
          exact hthreads' j
      · exact (Function.update_of_ne (hk i) ..).trans (hidle k hk)

end Pool
