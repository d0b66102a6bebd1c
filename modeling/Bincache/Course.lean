import Bincache.Changes
import Bincache.Lib.Glance

/-!
# One connection among the others

A server gives its connections turns, one operation at a time and in any order, and lets new ones in
meanwhile. What one of them sees of this is its own program, which the others interrupt between any
two operations. The library speaks of such a program in the abstract, as `Safe` for what the others
may do; this file carries what is said there to the runs of a server.

## The construction

`Amid` is a step of a server to which connection `i` stays connected, and `Course` a run of such
steps with the states it went through, oldest first. `Handles` is a course of which one program of
connection `i` is followed: it adds a state whenever another connection does something and whenever
the program performs its next operation. Every course is one of these, as long as the program is not
done, and has one of these as its beginning if it is (`handles_of_course`).

## The invariant

The protocol of the library keeps the states so far, each with what the program had of its own at
the time. In a server these are the states of the course, each with the peer of connection `i`:
`seen` is this set. It grows by the state that is added, which is what `safe_of_handles` shows for
either kind of step, so that what a program ends with that is safe beside the others is true of the
states that this one run went through, and of no others.
-/

namespace Bincache

namespace System

variable {ι S α : Type} [DecidableEq ι] [Crates] {machine : Machine ι S} {dir : Dir} {i : ι}
  {system system' start mid : System ι S} {past : List (System ι S)}

/-! ## Runs and what they went through -/

/-- A step of a server to which `i` stays connected. -/
inductive Amid (machine : Machine ι S) (i : ι) : System ι S → System ι S → Prop
  | accept {s : S} {server : Server ι} {peer : Peer} {result : Except Handler.Error Unit} (j : ι)
      (hj : j ≠ i) (peer' : Peer) (shard turns : ℕ)
      (hdone : server.threads j = (peer, .done result)) :
      Amid machine i ⟨s, some server⟩ ⟨s, some { server with
        threads := Function.update server.threads j
          (peer', (server.cache.session shard turns {}).run) }⟩
  | turn {s s' : S} {server : Server ι}
      {threads : ι → Peer × Program Ans (Except Handler.Error Unit)}
      (hstep : Pool.Step (machine.perform server.cache.ingest.key) ⟨s, server.threads⟩
        ⟨s', threads⟩) :
      Amid machine i ⟨s, some server⟩ ⟨s', some { server with threads }⟩

theorem Amid.step (h : Amid machine i system system') : Step machine dir system system' := by
  cases h with
  | accept j hj peer' shard turns hdone => exact .accept j peer' shard turns hdone
  | turn hstep => exact .turn hstep

theorem Amid.serves (h : Amid machine i system system') : Serves machine dir system system' := by
  refine ⟨?_, ?_, h.step⟩ <;> cases h <;> rfl

theorem steps_of_amid (dir : Dir) (h : Relation.ReflTransGen (Amid machine i) system system') :
    Steps machine dir system system' :=
  Relation.ReflTransGen.mono (fun _ _ h ↦ h.step) _ _ h

/-- A run of a server to which `i` stays connected: the states it went through, and the last one. -/
inductive Course (machine : Machine ι S) (i : ι) (start : System ι S) :
    List (System ι S) → System ι S → Prop
  | start : Course machine i start [start] start
  | later {past : List (System ι S)} {system system' : System ι S}
      (h : Course machine i start past system) (hstep : Amid machine i system system') :
      Course machine i start (past ++ [system']) system'

namespace Course

theorem amid (h : Course machine i start past system) :
    Relation.ReflTransGen (Amid machine i) start system := by
  induction h with
  | start => exact .refl
  | later _ hstep ih => exact ih.tail hstep

theorem mem (h : Course machine i start past system) : system ∈ past := by
  cases h with
  | start => exact List.mem_singleton_self _
  | later => exact List.mem_append_right _ (List.mem_singleton_self _)

theorem between (h : Course machine i start past system) (hmid : mid ∈ past) :
    Relation.ReflTransGen (Amid machine i) start mid
      ∧ Relation.ReflTransGen (Amid machine i) mid system := by
  induction h with
  | start =>
    obtain rfl := List.mem_singleton.mp hmid
    exact ⟨.refl, .refl⟩
  | @later past system system' h hstep ih =>
    rcases List.mem_append.mp hmid with hmid | hmid
    · obtain ⟨hbefore, hafter⟩ := ih hmid
      exact ⟨hbefore, hafter.tail hstep⟩
    · obtain rfl := List.mem_singleton.mp hmid
      exact ⟨h.amid.tail hstep, .refl⟩

end Course

/-! ## Following one program -/

/-- A run of a server that was about to run `program` and then `f` for connection `i`: the states it
went through, what is left of the program, and the last state. -/
inductive Handles (machine : Machine ι S) (i : ι)
    (f : α → Program Ans (Except Handler.Error Unit)) (program : Program Ans α)
    (start : System ι S) : List (System ι S) → Program Ans α → System ι S → Prop
  | start : Handles machine i f program start [start] program start
  /-- Another connection does something, or there is another connection. -/
  | others {past : List (System ι S)} {rest : Program Ans α} {s s' : S}
      {server server' : Server ι}
      (h : Handles machine i f program start past rest ⟨s, some server⟩)
      (hstep : Amid machine i ⟨s, some server⟩ ⟨s', some server'⟩)
      (hthread : server'.threads i = server.threads i) :
      Handles machine i f program start (past ++ [⟨s', some server'⟩]) rest ⟨s', some server'⟩
  /-- The program performs its next operation. -/
  | own {past : List (System ι S)} {op : Op} {next : Ans op → Program Ans α} {s s' : S}
      {server : Server ι} {peer peer' : Peer} {answer : Ans op}
      (h : Handles machine i f program start past (.call op next) ⟨s, some server⟩)
      (hthread : server.threads i = (peer, .call op next >>= f))
      (hop : machine.perform server.cache.ingest.key i op (s, peer) answer (s', peer')) :
      Handles machine i f program start
        (past ++ [⟨s', some { server with
          threads := Function.update server.threads i (peer', next answer >>= f) }⟩])
        (next answer) ⟨s', some { server with
          threads := Function.update server.threads i (peer', next answer >>= f) }⟩

variable {f : α → Program Ans (Except Handler.Error Unit)} {program rest : Program Ans α}

private theorem amid_own {op : Op} {next : Ans op → Program Ans α} {s s' : S} {server : Server ι}
    {peer peer' : Peer} {answer : Ans op}
    (hthread : server.threads i = (peer, .call op next >>= f))
    (hop : machine.perform server.cache.ingest.key i op (s, peer) answer (s', peer')) :
    Amid machine i ⟨s, some server⟩ ⟨s', some { server with
      threads := Function.update server.threads i (peer', next answer >>= f) }⟩ :=
  .turn (@Pool.Step.turn _ _ _ _ _ _ _ _ _ _ _ _ _ (fun answer ↦ next answer >>= f) _ i
    hthread hop)

theorem Handles.course (h : Handles machine i f program start past rest system) :
    Course machine i start past system := by
  induction h with
  | start => exact .start
  | others _ hstep _ ih => exact ih.later hstep
  | own _ hthread hop ih => exact ih.later (amid_own hthread hop)

theorem Handles.amid (h : Handles machine i f program start past rest system) :
    Relation.ReflTransGen (Amid machine i) start system := h.course.amid

theorem Handles.thread {server₀ : Server ι} {peer₀ : Peer} (hserver : start.server = some server₀)
    (hthread₀ : server₀.threads i = (peer₀, program >>= f))
    (h : Handles machine i f program start past rest system) : ∃ server peer,
      system.server = some server ∧ server.cache = server₀.cache
        ∧ server.threads i = (peer, rest >>= f) := by
  induction h with
  | start => exact ⟨server₀, peer₀, hserver, rfl, hthread₀⟩
  | others h hstep hthread ih =>
    obtain ⟨server, peer, hsome, hcache, hrest⟩ := ih
    obtain rfl := Option.some.inj hsome
    refine ⟨_, peer, rfl, ?_, hthread.trans hrest⟩
    cases hstep with
    | accept => exact hcache
    | turn => exact hcache
  | own h hthread hop ih =>
    obtain ⟨server, peer, hsome, hcache, -⟩ := ih
    obtain rfl := Option.some.inj hsome
    exact ⟨_, _, rfl, hcache, Function.update_self ..⟩

theorem Handles.uses {allowed : Op → Prop} (hprogram : program.Uses allowed)
    (h : Handles machine i f program start past rest system) : rest.Uses allowed := by
  induction h with
  | start => exact hprogram
  | others h hstep hthread ih => exact ih
  | own h hthread hop ih => exact ih.2 _

/-- The program may run to its end in one stretch. -/
theorem Handles.runs {s s' : S} {server : Server ι} {peer peer' : Peer} {value : α}
    (h : Handles machine i f program start past rest ⟨s, some server⟩)
    (hthread : server.threads i = (peer, rest >>= f))
    (hrun : rest.Runs (machine.perform server.cache.ingest.key i) (s, peer) value (s', peer')) :
    ∃ more, Handles machine i f program start (past ++ more) (.done value) ⟨s', some { server with
      threads := Function.update server.threads i (peer', f value) }⟩ := by
  induction rest generalizing s server peer past with
  | done result =>
    obtain ⟨rfl, hsite⟩ := hrun
    obtain ⟨rfl, rfl⟩ := Prod.mk.inj hsite
    have hsame : Function.update server.threads i (peer', f value) = server.threads :=
      Function.update_eq_self_iff.mpr hthread.symm
    refine ⟨[], ?_⟩
    rwa [hsame, List.append_nil]
  | call op next ih =>
    obtain ⟨answer, ⟨s₁, peer₁⟩, hop, hnext⟩ := hrun
    obtain ⟨more, hturned⟩ := ih answer (h.own hthread hop) (Function.update_self ..) hnext
    rw [Function.update_idem, List.append_assoc] at hturned
    exact ⟨_, hturned⟩

private theorem Handles.beside_runs {j : ι} (hj : j ≠ i) {s s' : S} {server : Server ι}
    {peer peer' : Peer} {other : Program Ans (Except Handler.Error Unit)}
    {result : Except Handler.Error Unit}
    (h : Handles machine i f program start past rest ⟨s, some server⟩)
    (hthread : server.threads j = (peer, other))
    (hrun : other.Runs (machine.perform server.cache.ingest.key j) (s, peer) result (s', peer')) :
    ∃ past', Handles machine i f program start past' rest ⟨s', some { server with
      threads := Function.update server.threads j (peer', .done result) }⟩ := by
  induction other generalizing s server peer past with
  | done value =>
    obtain ⟨rfl, hsite⟩ := hrun
    obtain ⟨rfl, rfl⟩ := Prod.mk.inj hsite
    have hsame : Function.update server.threads j (peer', .done result) = server.threads :=
      Function.update_eq_self_iff.mpr hthread.symm
    refine ⟨past, ?_⟩
    rwa [hsame]
  | call op next ih =>
    obtain ⟨answer, ⟨s₁, peer₁⟩, hop, hnext⟩ := hrun
    have hturned := h.others (.turn (.turn j hthread hop)) (Function.update_of_ne hj.symm ..)
    obtain ⟨past', hbeside⟩ := ih answer hturned (Function.update_self ..) hnext
    rw [Function.update_idem] at hbeside
    exact ⟨past', hbeside⟩

/-- Meanwhile another peer may connect and be served to its end. -/
theorem Handles.beside {j : ι} (hj : j ≠ i) {s s' : S} {server : Server ι}
    {peer peer' peer'' : Peer} {before result : Except Handler.Error Unit} {shard turns : ℕ}
    (h : Handles machine i f program start past rest ⟨s, some server⟩)
    (hdone : server.threads j = (peer, .done before))
    (hrun : (server.cache.session shard turns {}).run.Runs
      (machine.perform server.cache.ingest.key j) (s, peer') result (s', peer'')) :
    ∃ past', Handles machine i f program start past' rest ⟨s', some { server with
      threads := Function.update server.threads j (peer'', .done result) }⟩ := by
  have hconnected := h.others (.accept j hj peer' shard turns hdone)
    (Function.update_of_ne hj.symm ..)
  obtain ⟨past', hserved⟩ := hconnected.beside_runs hj (Function.update_self ..) hrun
  rw [Function.update_idem] at hserved
  exact ⟨past', hserved⟩

/-- Whatever a server went through, connection `i` is still at its program, or the run begins with
one in which it got done with it. -/
theorem handles_of_course {server₀ : Server ι} {peer₀ : Peer}
    (hserver : start.server = some server₀)
    (hthread₀ : server₀.threads i = (peer₀, program >>= f))
    (h : Course machine i start past system) :
    (∃ op next, Handles machine i f program start past (.call op next) system)
      ∨ ∃ value before mid, before <+: past
        ∧ Handles machine i f program start before (.done value) mid := by
  have hcases : ∀ {past : List (System ι S)} {rest : Program Ans α} {system : System ι S},
      Handles machine i f program start past rest system →
      (∃ op next, Handles machine i f program start past (.call op next) system)
        ∨ ∃ value before mid, before <+: past
          ∧ Handles machine i f program start before (.done value) mid := by
    rintro past (value | ⟨op, next⟩) system h
    · exact .inr ⟨value, past, system, List.prefix_refl _, h⟩
    · exact .inl ⟨op, next, h⟩
  induction h with
  | start => exact hcases .start
  | later _ hstep ih =>
    obtain ⟨op, next, h⟩ | ⟨value, before, mid, hprefix, hdone⟩ := ih
    · obtain ⟨server, peer, hsome, -, hthread⟩ := h.thread hserver hthread₀
      cases hstep with
      | accept j hj peer' shard turns hdone =>
        refine hcases (h.others (.accept j hj peer' shard turns hdone) ?_)
        exact Function.update_of_ne hj.symm ..
      | @turn s s' server' threads hstep =>
        obtain rfl := Option.some.inj hsome
        cases hstep with
        | @turn l l' s' op' next' answer j hother hop =>
          by_cases hj : j = i
          · subst hj
            obtain ⟨rfl, hcall⟩ := Prod.mk.inj (hthread.symm.trans hother)
            rw [Program.call_bind] at hcall
            injection hcall with hop' hnext
            subst hop'
            obtain rfl := eq_of_heq hnext
            exact hcases (h.own hthread hop)
          · refine hcases (h.others (.turn (.turn j hother hop)) ?_)
            exact Function.update_of_ne (Ne.symm hj) ..
    · exact .inr ⟨value, before, mid, hprefix.trans (List.prefix_append _ _), hdone⟩

/-! ## What a run has seen -/

/-- The states of a run, of which `part` is looked at, each with the peer of connection `i`. -/
def seen {T : Type} (part : S → T) (i : ι) (past : List (System ι S)) : Set (T × Peer) :=
  {t | ∃ mid ∈ past, ∃ server, mid.server = some server
    ∧ t = (part mid.shared, (server.threads i).1)}

section Seen

variable {T : Type} {part : S → T}

omit [DecidableEq ι] [Crates] in
theorem seen_concat (past : List (System ι S)) (s : S) (server : Server ι) :
    seen part i (past ++ [⟨s, some server⟩])
      = insert (part s, (server.threads i).1) (seen part i past) := by
  ext t
  rw [Set.mem_insert_iff]
  constructor
  · rintro ⟨mid, hmid, server', hserver, rfl⟩
    rcases List.mem_append.mp hmid with hmid | hmid
    · exact .inr ⟨mid, hmid, server', hserver, rfl⟩
    · obtain rfl := List.mem_singleton.mp hmid
      obtain rfl := Option.some.inj hserver
      exact .inl rfl
  · rintro (rfl | ⟨mid, hmid, server', hserver, rfl⟩)
    · exact ⟨_, List.mem_append_right _ (List.mem_singleton_self _), server, rfl, rfl⟩
    · exact ⟨mid, List.mem_append_left _ hmid, server', hserver, rfl⟩

theorem mem_seen {s : S} {server : Server ι} (h : Course machine i start past ⟨s, some server⟩) :
    (part s, (server.threads i).1) ∈ seen part i past := ⟨_, h.mem, server, rfl, rfl⟩

variable {others : T → T → Prop} {hrefl : ∀ t, others t t}
  {htrans : ∀ {a b c}, others a b → others b c → others a c} {step : Interpretation Ans (T × Peer)}
  {server₀ : Server ι} {peer₀ : Peer} {post : α → Peer → T × Set (T × Peer) → Prop}

/-- A program that is safe whatever the others do within some bounds stays so in a server that
keeps to them. -/
theorem safe_of_handles
    (hothers : ∀ {mid next : System ι S}, Relation.ReflTransGen (Amid machine i) start mid →
      Amid machine i mid next → others (part mid.shared) (part next.shared))
    (hstep : ∀ {key op s l answer s' l'}, machine.perform key i op (s, l) answer (s', l') →
      step op (part s, l) answer (part s', l'))
    (hserver : start.server = some server₀) (hthread₀ : server₀.threads i = (peer₀, program >>= f))
    (hsafe : program.Safe (.watching others hrefl htrans) (Program.watched step) () post peer₀
      (part start.shared, seen part i [start]))
    (h : Handles machine i f program start past rest system) :
    ∃ server peer, system.server = some server ∧ server.threads i = (peer, rest >>= f)
      ∧ rest.Safe (.watching others hrefl htrans) (Program.watched step) () post peer
        (part system.shared, seen part i past) := by
  induction h with
  | start => exact ⟨server₀, peer₀, hserver, hthread₀, hsafe⟩
  | @others past rest s s' server server' h hamid hthread ih =>
    obtain ⟨server₁, peer, hsome, hrest, hsafe⟩ := ih
    obtain rfl := Option.some.inj hsome
    refine ⟨server', peer, rfl, hthread.trans hrest, hsafe.later ⟨hothers h.amid hamid, ?_⟩⟩
    rw [seen_concat]
    exact Set.subset_insert _ _
  | @own past op next s s' server peer peer' answer h hthread hop ih =>
    obtain ⟨server₁, peer₁, hsome, hrest, hsafe⟩ := ih
    obtain rfl := Option.some.inj hsome
    obtain ⟨rfl, -⟩ := Prod.mk.inj (hthread.symm.trans hrest)
    refine ⟨_, _, rfl, Function.update_self .., ?_⟩
    rw [seen_concat]
    dsimp only
    rw [Function.update_self]
    have hwatched : Program.watched step () op ((part s, seen part i past), peer) answer
        ((part s', insert (part s', peer') (seen part i past)), peer') := ⟨hstep hop, rfl⟩
    exact (hsafe _ (Protocol.rely_refl _ () _) ⟨_, mem_seen h.course⟩ answer _ _ hwatched).2.2

/-- What a program ends with that is safe beside the others, it ends with in a server. -/
theorem post_of_handles
    (hothers : ∀ {mid next : System ι S}, Relation.ReflTransGen (Amid machine i) start mid →
      Amid machine i mid next → others (part mid.shared) (part next.shared))
    (hstep : ∀ {key op s l answer s' l'}, machine.perform key i op (s, l) answer (s', l') →
      step op (part s, l) answer (part s', l'))
    (hserver : start.server = some server₀) (hthread₀ : server₀.threads i = (peer₀, program >>= f))
    (hsafe : program.Safe (.watching others hrefl htrans) (Program.watched step) () post peer₀
      (part start.shared, seen part i [start]))
    {value : α} (hdone : Handles machine i f program start past (.done value) system) :
    ∃ server peer, system.server = some server ∧ server.threads i = (peer, f value)
      ∧ post value peer (part system.shared, seen part i past) := by
  obtain ⟨server, peer, hsome, hrest, hend⟩ :=
    safe_of_handles hothers hstep hserver hthread₀ hsafe hdone
  obtain ⟨s, _⟩ := system
  obtain rfl : _ = some server := hsome
  exact ⟨server, peer, rfl, hrest,
    hend _ (Protocol.rely_refl _ () _) ⟨_, mem_seen hdone.course⟩⟩

end Seen

/-- Connection `i` is still at its program, or the run begins with one at whose end it was done with
it and `post` held. -/
def Finishes (machine : Machine ι S) (i : ι) (f : α → Program Ans (Except Handler.Error Unit))
    (program : Program Ans α) (start : System ι S)
    (post : α → Peer → List (System ι S) → System ι S → Prop) (past : List (System ι S))
    (system : System ι S) : Prop :=
  (∃ op next, Handles machine i f program start past (.call op next) system)
    ∨ ∃ value before mid server peer, before <+: past
      ∧ Handles machine i f program start before (.done value) mid ∧ mid.server = some server
      ∧ server.threads i = (peer, f value) ∧ post value peer before mid

theorem finishes_of_course {server₀ : Server ι} {peer₀ : Peer}
    {post : α → Peer → List (System ι S) → System ι S → Prop}
    (hserver : start.server = some server₀)
    (hthread₀ : server₀.threads i = (peer₀, program >>= f))
    (hpost : ∀ value before mid, Handles machine i f program start before (.done value) mid →
      ∃ server peer, mid.server = some server ∧ server.threads i = (peer, f value)
        ∧ post value peer before mid)
    (hcourse : Course machine i start past system) :
    Finishes machine i f program start post past system := by
  obtain hcall | ⟨value, before, mid, hprefix, hdone⟩ := handles_of_course hserver hthread₀ hcourse
  · exact .inl hcall
  obtain ⟨server, peer, hsome, hrest, hend⟩ := hpost value before mid hdone
  exact .inr ⟨value, before, mid, server, peer, hprefix, hdone, hsome, hrest, hend⟩

theorem Finishes.imp {post post' : α → Peer → List (System ι S) → System ι S → Prop}
    (h : Finishes machine i f program start post past system)
    (himp : ∀ value peer before mid, Course machine i start before mid →
      post value peer before mid → post' value peer before mid) :
    Finishes machine i f program start post' past system := by
  obtain hcall | ⟨value, before, mid, server, peer, hprefix, hdone, hsome, hrest, hpost⟩ := h
  · exact .inl hcall
  · exact .inr ⟨value, before, mid, server, peer, hprefix, hdone, hsome, hrest,
      himp value peer before mid hdone.course hpost⟩

end System

end Bincache
