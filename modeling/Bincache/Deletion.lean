import Bincache.Boot
import Bincache.Core.RoundTrip

/-!
# The argument of a delete

An operator names a path by its hash, by its base name, or by either under a directory. The command
cuts the text after the last slash at the byte where a hash ends and looks only at what is in front
of the cut. So a text that is too long is taken for the hash it starts with, whatever follows, and a
text whose cut falls inside a character panics.

`Obeys` is what an operator expects of an argument, `Misread` the two kinds of arguments that get
something else.
-/

namespace Bincache

namespace Boot

open StorePath (Hash Name hashTextLen splitAt)

/-! ## The text after the last slash -/

/-- `path` ends in `text`, which is all of it or follows its last slash. -/
structure EndsIn (path text : Text) : Prop where
  slash : '/' ∉ text
  start : path = text ∨ ∃ dir, path = dir ++ '/' :: text

theorem lastPart_of_endsIn {path text : Text} (h : EndsIn path text) : lastPart path = text := by
  have hwhole : text.splitOn '/' = [text] := List.splitOn_eq_singleton h.slash
  rw [lastPart]
  obtain rfl | ⟨dir, rfl⟩ := h.start
  · rw [hwhole]
    rfl
  · rw [List.splitOn_append_cons_self, hwhole, List.getLast?_concat]
    rfl

theorem exists_endsIn (path : Text) : ∃ text, EndsIn path text := by
  induction path with
  | nil => exact ⟨[], List.not_mem_nil, .inl rfl⟩
  | cons c path ih =>
    obtain ⟨text, hslash, rfl | ⟨dir, rfl⟩⟩ := ih
    · by_cases hc : c = '/'
      · exact ⟨path, hslash, .inr ⟨[], by rw [hc, List.nil_append]⟩⟩
      · exact ⟨c :: path, List.not_mem_cons_of_ne_of_not_mem (Ne.symm hc) hslash, .inl rfl⟩
    · exact ⟨text, hslash, .inr ⟨c :: dir, rfl⟩⟩

/-! ## What an argument should do -/

/-- The texts that name a key: its hash, and a base name that starts with it. -/
inductive Spells (key : Hash) : Text → Prop
  | hash : Spells key key.render
  | path (name : Name) : Spells key (StorePath.render ⟨key, name⟩)

/-- What deleting `key` may come to: its record and no other is gone, or there was none, or a
failure of the system kept it. -/
structure Forgets (env : Env) (key : Hash) (before after : Index)
    (result : Except Error Maintain.Deleted) : Prop where
  removed : result = .ok .removed → before.narinfo key ≠ none
    ∧ ∀ key', after.narinfo key' = if key' = key then none else before.narinfo key'
  absent : result = .ok .absent → before.narinfo key = none ∧ after = before
  failed : ∀ error, result = .error error → env = .hostile ∧ after = before

/-- The command does not panic, deletes the key its argument names, and refuses an argument that
names none before it has touched anything. -/
structure Obeys (path : Text) : Prop where
  total : (deletePath path).isSome
  accepts : ∀ text key command env site result site', EndsIn path text → Spells key text →
    deletePath path = some command → command.run.Runs (step env) site result site' →
      Forgets env key site.1.index site'.1.index result
  refuses : ∀ text command env site result site', EndsIn path text → (∀ key, ¬ Spells key text) →
    deletePath path = some command → command.run.Runs (step env) site result site' →
      (∃ error, result = .error error) ∧ site' = site

/-- A text that is longer than a hash and cannot be cut where a hash ends, or that is a hash and
then something that is not a dash and a name. -/
inductive Misread (text : Text) : Prop
  | torn (hlen : hashTextLen < Text.byteLen text)
      (hcut : ∀ before after, text = before ++ after → Text.byteLen before ≠ hashTextLen)
  | trailing (key : Hash) (rest : Text) (htext : text = key.render ++ rest) (hrest : rest ≠ [])
      (hname : ∀ name : Name, rest ≠ '-' :: name.text)

/-! ## What it does -/

section Runs

open Attempt

variable {env : Env} {world : World} {peer : Peer}

/-- Opening the data directory leaves the index alone and fails only if the system does. -/
private theorem ends_open :
    Ends env Boot.open.run (fun result _ world' ↦ world'.index = world.index
      ∧ ∀ error, result = .error error → env = .hostile) (world, peer) := by
  have hdir : ∀ (path : FilePath) (peer' : Peer) (world' : World), world'.index = world.index →
      Ends env ((fileCall (.createDirAll path)).context (Store.Error.createDir path)).run
        (fun result _ world'' ↦ world''.index = world.index
          ∧ ∀ error, result = .error error → env = .hostile) (world', peer') := by
    intro path peer' world' hindex
    refine safe_context (ends_call fun answer site hop ↦ ends_done ?_)
    obtain ⟨henv, rfl, rfl⟩ | ⟨rfl, rfl⟩ := of_step_createDirAll hop
    · exact ⟨hindex, fun _ _ ↦ henv⟩
    · exact ⟨hindex, fun _ h ↦ absurd h (by simp [Except.mapError])⟩
  -- Three directories, one after the other.
  refine safe_context (safe_bind ((hdir _ _ _ rfl).imp ?_))
  rintro (error | ⟨⟩) peer₁ world₁ - ⟨hindex₁, hfailed₁⟩
  · exact ⟨hindex₁, fun _ _ ↦ hfailed₁ error rfl⟩
  refine safe_bind ((hdir _ _ _ hindex₁).imp ?_)
  rintro (error | ⟨⟩) peer₂ world₂ - ⟨hindex₂, hfailed₂⟩
  · exact ⟨hindex₂, fun _ _ ↦ hfailed₂ error rfl⟩
  refine safe_bind ((hdir _ _ _ hindex₂).imp ?_)
  rintro (error | ⟨⟩) peer₃ world₃ - ⟨hindex₃, hfailed₃⟩
  · exact ⟨hindex₃, fun _ _ ↦ hfailed₃ error rfl⟩
  · exact ends_done ⟨hindex₃, fun _ h ↦ absurd h (by simp [Except.mapError])⟩

theorem forgets_of_runs {key : Hash} {site site' : Site} {result : Except Error Maintain.Deleted}
    (h : (delete key).run.Runs (step env) site result site') :
    Forgets env key site.1.index site'.1.index result := by
  have hends : Ends env (delete key).run (fun result _ world' ↦
      Forgets env key site.1.index world'.index result) site := by
    refine safe_bind ((ends_open).imp ?_)
    rintro (error | ⟨⟩) peer' world' - ⟨hindex, hfailed⟩
    · exact ⟨fun h ↦ absurd h (by simp), fun h ↦ absurd h (by simp),
        fun _ _ ↦ ⟨hfailed error rfl, hindex⟩⟩
    · refine safe_context (safe_bind
        (safe_context (ends_call fun answer site'' hop ↦ ends_done ?_)))
      obtain ⟨henv, rfl, rfl⟩ | ⟨rfl, rfl⟩ := of_step_index hop
      · exact ⟨fun h ↦ absurd h (by simp [Except.mapError]),
          fun h ↦ absurd h (by simp [Except.mapError]), fun _ _ ↦ ⟨henv, hindex⟩⟩
      · have hrow : (IndexOp.unpublish key).run world'.index = site.1.index.unpublish key := by
          rw [hindex]
          rfl
        rw [hrow]
        cases hrecord : site.1.index.narinfo key with
        | none =>
          rw [Index.unpublish_of_none hrecord]
          exact ends_done ⟨fun h ↦ absurd h (by simp [Except.mapError]), fun _ ↦ ⟨hrecord, rfl⟩,
            fun _ h ↦ absurd h (by simp [Except.mapError])⟩
        | some record =>
          have hfound : (site.1.index.unpublish key).1 = some record := by
            rw [Index.unpublish, hrecord]
          rw [hfound]
          refine ends_done ⟨fun _ ↦ ⟨by rw [hrecord]; simp, Index.narinfo_unpublish key⟩,
            fun h ↦ absurd h (by simp [Except.mapError]),
            fun _ h ↦ absurd h (by simp [Except.mapError])⟩
  exact hends.runs h

end Runs

/-- A text that has a whole hash in front of the cut is taken for that hash. -/
theorem keyOf_hash {path : Text} {key : Hash} {rest : Text}
    (h : EndsIn path (key.render ++ rest)) : keyOf path = some (.ok key) := by
  have hlen : Text.byteLen (key.render ++ rest) = hashTextLen + Text.byteLen rest := by
    rw [Text.byteLen_append, key.byteLen_render]
  have hsplit : splitAt hashTextLen (key.render ++ rest) = some (key.render, rest) :=
    StorePath.splitAt_eq_some.mpr ⟨rfl, key.byteLen_render⟩
  have hmin : min (Text.byteLen (key.render ++ rest)) hashTextLen = hashTextLen := by omega
  rw [keyOf, lastPart_of_endsIn h, hmin, hsplit, Option.map_some, Hash.parse_render]
  rfl

theorem Spells.exists_rest {key : Hash} {text : Text} (h : Spells key text) :
    ∃ rest, text = key.render ++ rest ∧ (rest = [] ∨ ∃ name : Name, rest = '-' :: name.text) := by
  cases h with
  | hash => exact ⟨[], (List.append_nil _).symm, .inl rfl⟩
  | path name => exact ⟨'-' :: name.text, rfl, .inr ⟨name, rfl⟩⟩

theorem exists_rest_of_keyOf {path text : Text} {key : Hash} (hends : EndsIn path text)
    (h : keyOf path = some (.ok key)) : ∃ rest, text = key.render ++ rest := by
  rw [keyOf, lastPart_of_endsIn hends] at h
  obtain ⟨⟨before, after⟩, hsplit, hparse⟩ := Option.map_eq_some_iff.mp h
  obtain ⟨rfl, -⟩ := StorePath.splitAt_eq_some.mp hsplit
  refine ⟨after, congrArg (· ++ after) (Hash.parse_eq_ok.mp ?_)⟩
  cases hbefore : Hash.parse before with
  | ok key' =>
    rw [hbefore] at hparse
    exact congrArg Except.ok (Except.ok.inj hparse)
  | error source =>
    rw [hbefore] at hparse
    exact absurd hparse (by simp [Except.mapError])

theorem keyOf_isSome {path text : Text} (hends : EndsIn path text) (h : ¬ Misread text) :
    (keyOf path).isSome := by
  rw [keyOf, lastPart_of_endsIn hends, Option.isSome_map, Option.isSome_iff_exists]
  by_cases hlen : hashTextLen < Text.byteLen text
  · -- A text that is too long is cut at the end of a character, or it is torn.
    by_contra hnone
    refine h (.torn hlen fun before after htext hbefore ↦ hnone ⟨(before, after), ?_⟩)
    rw [Nat.min_eq_right hlen.le]
    exact StorePath.splitAt_eq_some.mpr ⟨htext, hbefore⟩
  · refine ⟨(text, []), ?_⟩
    rw [Nat.min_eq_left (Nat.le_of_not_lt hlen)]
    exact StorePath.splitAt_eq_some.mpr ⟨(List.append_nil text).symm, rfl⟩

/-! ## When it does what it should -/

theorem deletePath_eq_some {path : Text} {command : Call Error Maintain.Deleted} :
    deletePath path = some command
      ↔ ∃ key, keyOf path = some key ∧ command = Attempt.ofExcept key >>= delete := by
  rw [deletePath, Option.map_eq_some_iff]
  exact exists_congr fun key ↦ and_congr_right fun _ ↦ eq_comm

theorem obeys_of_not_misread {path text : Text} (hends : EndsIn path text) (h : ¬ Misread text) :
    Obeys path := by
  have hunique : ∀ text', EndsIn path text' → text' = text := fun text' hends' ↦
    (lastPart_of_endsIn hends').symm.trans (lastPart_of_endsIn hends)
  refine ⟨?_, fun text' key command env site result site' hends' hspells hcommand hrun ↦ ?_,
    fun text' command env site result site' hends' hspells hcommand hrun ↦ ?_⟩
  · rw [deletePath, Option.isSome_map]
    exact keyOf_isSome hends h
  · obtain ⟨key', hkey, rfl⟩ := deletePath_eq_some.mp hcommand
    obtain ⟨rest, rfl, -⟩ := hspells.exists_rest
    obtain rfl := Option.some.inj (hkey.symm.trans (keyOf_hash hends'))
    exact forgets_of_runs hrun
  · obtain rfl := hunique text' hends'
    obtain ⟨key | key, hkey, rfl⟩ := deletePath_eq_some.mp hcommand
    · obtain ⟨rfl, rfl⟩ := hrun
      exact ⟨⟨key, rfl⟩, rfl⟩
    · -- What was taken for a key is one that the argument names, or it was misread.
      obtain ⟨rest, rfl⟩ := exists_rest_of_keyOf hends hkey
      by_cases hrest : rest = []
      · refine absurd ?_ (hspells key)
        rw [hrest, List.append_nil]
        exact .hash
      by_cases hname : ∃ name : Name, rest = '-' :: name.text
      · obtain ⟨name, rfl⟩ := hname
        exact absurd (.path name) (hspells key)
      · exact absurd (.trailing key rest rfl hrest (not_exists.mp hname)) h

theorem Misread.not_obeys {path text : Text} (h : Misread text) (hends : EndsIn path text) :
    ¬ Obeys path := by
  intro hobeys
  obtain ⟨command, hcommand⟩ := Option.isSome_iff_exists.mp hobeys.total
  obtain ⟨key, hkey, rfl⟩ := deletePath_eq_some.mp hcommand
  cases h with
  | torn hlen hcut =>
    rw [keyOf, lastPart_of_endsIn hends] at hkey
    obtain ⟨⟨before, after⟩, hsplit, -⟩ := Option.map_eq_some_iff.mp hkey
    rw [Nat.min_eq_right hlen.le] at hsplit
    obtain ⟨htext, hbefore⟩ := StorePath.splitAt_eq_some.mp hsplit
    exact hcut before after htext hbefore
  | trailing key' rest htext hrest hname =>
    subst htext
    obtain rfl := Option.some.inj (hkey.symm.trans (keyOf_hash hends))
    -- Nothing fails in this run, and it does not refuse.
    obtain ⟨result, site', hrun⟩ := exists_runs_fair (delete key').run
      (⟨.empty, .empty, 0, 0, fun _ ↦ {}⟩, ⟨[], []⟩)
    have hspells : ∀ key, ¬ Spells key (key'.render ++ rest) := by
      intro key hspells
      obtain ⟨rest', heq, hform⟩ := hspells.exists_rest
      have hlength : key'.render.length = key.render.length := by
        rw [Hash.length_render, Hash.length_render]
      obtain ⟨-, rfl⟩ := List.append_inj heq hlength
      obtain hnil | ⟨name, hrest'⟩ := hform
      · exact hrest hnil
      · exact hname name hrest'
    obtain ⟨⟨error, rfl⟩, -⟩ := hobeys.refuses _ _ .fair _ result site' hends hspells hcommand hrun
    exact absurd ((forgets_of_runs hrun).failed error rfl).1 (by decide)

/-- An argument does what its text spells exactly if that text is not misread. -/
theorem obeys_iff (path : Text) : Obeys path ↔ ∀ text, EndsIn path text → ¬ Misread text := by
  constructor
  · exact fun hobeys text hends hmisread ↦ hmisread.not_obeys hends hobeys
  · intro h
    -- what `file_name` leaves of the path is one of its ends
    obtain ⟨text, hends⟩ := exists_endsIn path
    exact obeys_of_not_misread hends (h text hends)

/-- A longer digest is taken for its first 32 characters, and a character on the cut panics. -/
theorem not_obeys_longer_digest :
    ¬ Obeys "/nix/store/0000000000000000000000000000000000000000000000000000".toList
      ∧ ¬ Obeys "0000000000000000000000000000000é".toList := by
  constructor
  · have hends : EndsIn "/nix/store/0000000000000000000000000000000000000000000000000000".toList
        "0000000000000000000000000000000000000000000000000000".toList :=
      ⟨by decide, .inr ⟨"/nix/store".toList, by decide⟩⟩
    have hkey : "0000000000000000000000000000000000000000000000000000".toList
        = Hash.render ⟨⟨List.replicate 20 0, by decide⟩⟩ ++ List.replicate 20 '0' := by
      decide
    exact (Misread.trailing _ _ hkey (by decide) fun name h ↦
      absurd (List.cons.inj h).1 (by decide)).not_obeys hends
  · have hends : EndsIn "0000000000000000000000000000000é".toList
        "0000000000000000000000000000000é".toList :=
      ⟨by decide, .inl rfl⟩
    have hnone : splitAt hashTextLen "0000000000000000000000000000000é".toList = none := by decide
    refine (Misread.torn (by decide) fun before after htext hlen ↦ ?_).not_obeys hends
    exact absurd (hnone.symm.trans (StorePath.splitAt_eq_some.mpr ⟨htext, hlen⟩)) (by simp)

end Boot

end Bincache
