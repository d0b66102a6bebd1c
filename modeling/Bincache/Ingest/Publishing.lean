import Bincache.Core.Fingerprint
import Bincache.Ingest.Push

/-!
# What a publish does

One lookup and one write transaction. Run alone, a publish either fails and changes nothing, or puts
the record it returns into the table and changes nothing else. What it signs is the fingerprint of
the record it stores.
-/

namespace Bincache

variable {env : Env}

theorem ends_indexCall (op : IndexOp) (site : Site) :
    Ends env (indexCall op).run (fun result peer world ↦ peer = site.2 ∧ match result with
      | .ok value => value = (op.run site.1.index).1
        ∧ world = { site.1 with index := (op.run site.1.index).2 }
      | .error _ => world = site.1 ∧ env = .hostile) site := by
  refine ends_call fun answer site' hop ↦ ends_done ?_
  obtain ⟨henv, rfl, rfl⟩ | ⟨rfl, rfl⟩ := of_step_index hop
  · exact ⟨rfl, rfl, henv⟩
  · exact ⟨rfl, rfl, rfl⟩

namespace Ingest

variable [Crates] {ingest : Ingest} {nar : Sha256 → Option Entry} {body : Text}
  {declared : NarInfo} {entry : Entry}

theorem Publishable.unique (h : ingest.Publishable nar body declared entry) {declared' : NarInfo}
    {entry' : Entry} (h' : ingest.Publishable nar body declared' entry') :
    declared' = declared ∧ entry' = entry := by
  obtain rfl := Except.ok.inj (h'.parsed.symm.trans h.parsed)
  exact ⟨rfl, Option.some.inj (h'.stored.symm.trans h.stored)⟩

/-- A publish stores the record it returns, and a publish that fails changes nothing. -/
theorem ends_publish (ingest : Ingest) (body : Text) (site : Site) :
    Ends env (ingest.publish body).run (fun result peer world ↦ peer = site.2 ∧ match result with
      | .ok record => (∃ declared entry,
          ingest.Publishable site.1.index.nar body declared entry
            ∧ record = ingest.record declared entry)
        ∧ world = { site.1 with index := site.1.index.publish record }
      | .error _ => world = site.1 ∧ (env = .hostile
        ∨ ∀ declared entry, ¬ingest.Publishable site.1.index.nar body declared entry)) site := by
  cases hparse : NarInfo.parse body ingest.dir with
  | error error =>
    rw [ingest.publish_of_error hparse]
    refine ends_done ⟨rfl, rfl, .inr fun declared entry h ↦ ?_⟩
    exact absurd (hparse.symm.trans h.parsed) (by simp)
  | ok declared =>
    rw [ingest.publish_of_ok hparse]
    refine Attempt.safe_bind (Attempt.safe_context ((ends_indexCall _ site).imp ?_))
    rintro (error | entry) peer world - ⟨rfl, hworld⟩
    · exact ⟨rfl, hworld.1, .inl hworld.2⟩
    obtain ⟨rfl, rfl⟩ := hworld
    change Ends env (ingest.publishEntry declared (site.1.index.nar declared.narHash)).run _ site
    cases hentry : site.1.index.nar declared.narHash with
    | none =>
      refine ends_done ⟨rfl, rfl, .inr fun declared' entry h ↦ ?_⟩
      cases hparse.symm.trans h.parsed
      exact absurd (hentry.symm.trans h.stored) (by simp)
    | some entry =>
      rw [publishEntry]
      split
      · next hsize =>
        refine Attempt.safe_bind (Attempt.safe_context ((ends_indexCall _ site).imp ?_))
        rintro (error | ⟨⟩) peer world - ⟨rfl, hworld⟩
        · exact ⟨rfl, hworld.1, .inl hworld.2⟩
        · exact ends_done ⟨rfl, ⟨declared, entry, ⟨hparse, hentry, hsize⟩, rfl⟩, hworld.2⟩
      · next hsize =>
        refine ends_done ⟨rfl, rfl, .inr fun declared' entry' h ↦ ?_⟩
        cases hparse.symm.trans h.parsed
        cases hentry.symm.trans h.stored
        exact hsize h.narSize

theorem Publishable.runs {site : Site}
    (h : ingest.Publishable site.1.index.nar body declared entry) :
    (ingest.publish body).run.Runs (step env) site (.ok (ingest.record declared entry))
      ({ site.1 with index := site.1.index.publish (ingest.record declared entry) }, site.2) := by
  refine runs_of_fair ?_
  obtain ⟨result, ⟨world, peer⟩, hrun⟩ := exists_runs_fair (ingest.publish body).run site
  obtain ⟨hpeer, hresult⟩ := (ends_publish ingest body site).runs hrun
  dsimp only at hpeer
  cases result with
  | error error => exact (hresult.2.resolve_left (by decide) declared entry h).elim
  | ok record =>
    obtain ⟨⟨declared', entry', h', rfl⟩, hworld⟩ := hresult
    obtain ⟨rfl, rfl⟩ := h.unique h'
    rw [← hpeer, ← hworld]
    exact hrun

end Ingest

end Bincache
