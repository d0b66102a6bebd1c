import Bincache.Lib.Attempt

/-!
# Runs that keep a record

A run says nothing about how it got to its value. `recorded` lets every operation write down events,
by a note on the operation and its answer that leaves the state and the answers as they are, so a
statement about a run can speak of what happened on the way.

An attempt *surfaces* its events when each of them is harmless or the reason the attempt failed.
That is what passing every failure on to the caller comes to, and like it, it composes: whatever
follows a success follows harmless events only.
-/

namespace Program

variable {Op Event : Type} {Ans : Op → Type} {α S L : Type}

/-- Does what `step` does, and writes what `note` has to say about it at the end of a record. -/
def recorded (note : (op : Op) → Ans op → List Event) (step : Interpretation Ans (S × L)) :
    Interpretation Ans (S × L × List Event) := fun op before answer after ↦
  step op (before.1, before.2.1) answer (after.1, after.2.1)
    ∧ after.2.2 = before.2.2 ++ note op answer

variable {note : (op : Op) → Ans op → List Event} {step : Interpretation Ans (S × L)} {s : S}
  {l : L}
  {record : List Event} {program : Program Ans α}

theorem Safe.recorded {post : α → L → S → Prop}
    (h : program.Safe (.alone S) (fun _ ↦ step) () post l s) :
    program.Safe (.alone S) (fun _ ↦ recorded note step) () (fun value l' ↦ post value l'.1)
      (l, record) s := by
  induction program generalizing s l record with
  | done value => exact safe_alone_done.mpr (safe_alone_done.mp h)
  | call op next ih =>
    refine safe_alone_call.mpr fun answer s₁ l₁ hop ↦ ?_
    exact ih answer (safe_alone_call.mp h answer s₁ l₁.1 hop.1)

theorem Safe.and {step : Unit → Interpretation Ans (S × L)} {post post' : α → L → S → Prop}
    (h : program.Safe (.alone S) step () post l s)
    (h' : program.Safe (.alone S) step () post' l s) :
    program.Safe (.alone S) step () (fun value l s ↦ post value l s ∧ post' value l s) l s := by
  refine safe_alone_iff.mpr fun value s' l' hrun ↦ ?_
  exact ⟨safe_alone_iff.mp h value s' l' hrun, safe_alone_iff.mp h' value s' l' hrun⟩

/-- A program whose operations can do less on a second reading is as safe there. -/
theorem Uses.safe_refine {step step' : Unit → Interpretation Ans (S × L)}
    {post : α → L → S → Prop} {allowed : Op → Prop} (h : program.Uses allowed)
    (hstep : ∀ op s answer s', allowed op → step' () op s answer s' → step () op s answer s')
    (hsafe : program.Safe (.alone S) step () post l s) :
    program.Safe (.alone S) step' () post l s := by
  induction program generalizing s l with
  | done value => exact hsafe
  | call op next ih =>
    refine safe_alone_call.mpr fun answer s₁ l₁ hop ↦ ih answer (h.2 answer) ?_
    exact safe_alone_call.mp hsafe answer s₁ l₁ (hstep op _ answer _ h.1 hop)

theorem Uses.safe_recorded {allowed : Op → Prop} {harmless : Event → Prop}
    (h : program.Uses allowed)
    (hnote : ∀ op answer, allowed op → ∀ event ∈ note op answer, harmless event) :
    program.Safe (.alone S) (fun _ ↦ Program.recorded note step) ()
      (fun _ l' _ ↦ ∃ news, l'.2 = record ++ news ∧ ∀ event ∈ news, harmless event)
      (l, record) s := by
  induction program generalizing s l record with
  | done value => exact safe_alone_done.mpr ⟨[], (List.append_nil _).symm, by simp⟩
  | call op next ih =>
    refine safe_alone_call.mpr ?_
    rintro answer s₁ ⟨l₁, -⟩ ⟨-, rfl⟩
    refine (ih answer (h.2 answer)).imp ?_
    rintro value ⟨l', record'⟩ s' - ⟨news, hrecord, hnews⟩
    refine ⟨note op answer ++ news, hrecord.trans (List.append_assoc _ _ _), fun event hevent ↦ ?_⟩
    obtain hevent | hevent := List.mem_append.mp hevent
    · exact hnote op answer h.1 event hevent
    · exact hnews event hevent

end Program

namespace Attempt

open Program (recorded safe_alone_call safe_alone_done)

variable {Op Event : Type} {Ans : Op → Type} {ε ε' α β S L : Type}
  (note : (op : Op) → Ans op → List Event) (step : Interpretation Ans (S × L))
  (harmless : Event → Prop) (blames : Event → ε → Prop)

/-- Each of the events is harmless, or is what the attempt failed for. -/
def Blamed (result : Except ε α) (news : List Event) : Prop :=
  ∀ event ∈ news, harmless event ∨ ∃ error, result = .error error ∧ blames event error

/-- Whatever happens in a run of the attempt is harmless, or makes it fail. -/
def Surfaces (x : Attempt Ans ε α) : Prop :=
  ∀ s l record, x.run.Safe (.alone S) (fun _ ↦ recorded note step) ()
    (fun result l' _ ↦ ∃ news, l'.2 = record ++ news ∧ Blamed harmless blames result news)
    (l, record) s

variable {note step harmless blames}

theorem harmless_of_blamed {value : α} {news : List Event}
    (h : Blamed harmless blames (.ok value : Except ε α) news) :
    ∀ event ∈ news, harmless event := by
  intro event hevent
  obtain hharmless | ⟨error, herror, -⟩ := h event hevent
  · exact hharmless
  · exact absurd herror (by simp)

theorem surfaces_of_uses {allowed : Op → Prop} {x : Attempt Ans ε α} (h : x.run.Uses allowed)
    (hnote : ∀ op answer, allowed op → ∀ event ∈ note op answer, harmless event) :
    Surfaces note step harmless blames x := by
  intro s l record
  refine (h.safe_recorded hnote).imp ?_
  rintro result l' s' - ⟨news, hrecord, hnews⟩
  exact ⟨news, hrecord, fun event hevent ↦ .inl (hnews event hevent)⟩

theorem surfaces_done (result : Except ε α) :
    Surfaces note step harmless blames (ExceptT.mk (.done result) : Attempt Ans ε α) :=
  fun _ _ _ ↦ safe_alone_done.mpr ⟨[], (List.append_nil _).symm, by simp [Blamed]⟩

theorem surfaces_call (op : Op) (read : Ans op → Except ε α)
    (h : ∀ answer, Blamed harmless blames (read answer) (note op answer)) :
    Surfaces note step harmless blames
      (ExceptT.mk (.call op fun answer ↦ .done (read answer)) : Attempt Ans ε α) := by
  intro s l record
  refine safe_alone_call.mpr ?_
  rintro answer s₁ ⟨l₁, -⟩ ⟨-, rfl⟩
  exact safe_alone_done.mpr ⟨note op answer, rfl, h answer⟩

theorem surfaces_bind {x : Attempt Ans ε α} {f : α → Attempt Ans ε β}
    (hx : Surfaces note step harmless blames x)
    (hf : ∀ value, Surfaces note step harmless blames (f value)) :
    Surfaces note step harmless blames (x >>= f) := by
  intro s l record
  refine safe_bind ((hx s l record).imp ?_)
  rintro (error | value) ⟨l', record'⟩ s' - ⟨news, rfl, hnews⟩
  · refine ⟨news, rfl, fun event hevent ↦ (hnews event hevent).imp_right ?_⟩
    rintro ⟨error', herror, hblames⟩
    obtain rfl := Except.error.inj herror
    exact ⟨error, rfl, hblames⟩
  · refine (hf value s' l' _).imp ?_
    rintro result ⟨l'', record''⟩ s'' - ⟨news', hrecord, hnews'⟩
    refine ⟨news ++ news', hrecord.trans (List.append_assoc _ _ _), fun event hevent ↦ ?_⟩
    -- A success leaves only harmless events behind, so only the rest has anything to blame.
    obtain hevent | hevent := List.mem_append.mp hevent
    · exact .inl (harmless_of_blamed hnews event hevent)
    · exact hnews' event hevent

theorem surfaces_map {x : Attempt Ans ε α} {f : α → β}
    (hx : Surfaces note step harmless blames x) : Surfaces note step harmless blames (f <$> x) := by
  intro s l record
  refine safe_map ((hx s l record).imp ?_)
  rintro result l' s' - ⟨news, hrecord, hnews⟩
  refine ⟨news, hrecord, fun event hevent ↦ (hnews event hevent).imp_right ?_⟩
  rintro ⟨error, rfl, hblames⟩
  exact ⟨error, rfl, hblames⟩

theorem surfaces_context {blames : Event → ε' → Prop} {x : Attempt Ans ε α} {f : ε → ε'}
    (hx : Surfaces note step harmless (fun event error ↦ blames event (f error)) x) :
    Surfaces note step harmless blames (context f x) := by
  intro s l record
  refine safe_context ((hx s l record).imp ?_)
  rintro result l' s' - ⟨news, hrecord, hnews⟩
  refine ⟨news, hrecord, fun event hevent ↦ (hnews event hevent).imp_right ?_⟩
  rintro ⟨error, rfl, hblames⟩
  exact ⟨f error, rfl, hblames⟩

/-- A clean-up that does only harmless things hides nothing. -/
theorem surfaces_onError {allowed : Op → Prop} {x : Attempt Ans ε α} {cleanup : Program Ans β}
    (hx : Surfaces note step harmless blames x) (hcleanup : cleanup.Uses allowed)
    (hnote : ∀ op answer, allowed op → ∀ event ∈ note op answer, harmless event) :
    Surfaces note step harmless blames (onError x cleanup) := by
  intro s l record
  refine safe_onError ((hx s l record).imp ?_)
  rintro (error | value) ⟨l', record'⟩ s' - ⟨news, rfl, hnews⟩
  · refine (hcleanup.safe_recorded hnote).imp ?_
    rintro _ ⟨l'', record''⟩ s'' - ⟨news', hrecord, hnews'⟩
    refine ⟨news ++ news', hrecord.trans (List.append_assoc _ _ _), fun event hevent ↦ ?_⟩
    obtain hevent | hevent := List.mem_append.mp hevent
    · refine (hnews event hevent).imp_right ?_
      rintro ⟨error', herror, hblames⟩
      obtain rfl := Except.error.inj herror
      exact ⟨error, rfl, hblames⟩
    · exact .inl (hnews' event hevent)
  · exact ⟨news, rfl, hnews⟩

end Attempt
