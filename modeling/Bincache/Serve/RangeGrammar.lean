import Bincache.Serve.Range

/-!
# The grammar of a range

What a `Range` header says, apart from the function that resolves it: one of three forms over digit
strings below `2 ^ 64`, and anything else says nothing. The resolver follows the grammar on every
header in it. Outside of it, it ignores a header except at two exits: its number parser also takes a
plus sign, and a first position past the end is refused before the last one is looked at.
-/

namespace Bincache

namespace Range

open Text (Digits)

/-- The three forms. -/
inductive Spec
  | onward (first : ℕ)
  | between (first last : ℕ)
  | suffix (count : ℕ)

/-- The spelling of a form. -/
inductive Spells : Text → Spec → Prop
  | onward {first : Text} {m : ℕ} (hfirst : Digits first m) :
    Spells (first ++ '-' :: []) (.onward m)
  | between {first last : Text} {m n : ℕ} (hfirst : Digits first m) (hlast : Digits last n) :
    Spells (first ++ '-' :: last) (.between m n)
  | suffix {last : Text} {n : ℕ} (hlast : Digits last n) : Spells ([] ++ '-' :: last) (.suffix n)

/-- What a form selects of an artifact. -/
def Spec.select (length : ℕ) : Spec → Requested
  | onward first => if length ≤ first then .unsatisfiable else .part ⟨first, length - 1⟩
  | between first last =>
    if length ≤ first ∨ last < first then .unsatisfiable else .part ⟨first, min last (length - 1)⟩
  | suffix count =>
    if count = 0 then .unsatisfiable else .part ⟨length - min count length, length - 1⟩

/-- What a header in the grammar says. -/
def Means (header : Text) (spec : Spec) : Prop :=
  ∃ set, Text.trim header = "bytes=".toList ++ set ∧ Spells set spec

def Signed (text : Text) (n : ℕ) : Prop := ∃ digits, text = '+' :: digits ∧ Digits digits n

/-- The headers outside the grammar that the resolver does not ignore: a number has a sign, or what
follows the dash is no number and the first position is past the end. -/
def Stray (header : Text) (length : ℕ) : Prop :=
  ∃ first last, Text.trim header = "bytes=".toList ++ (first ++ '-' :: last) ∧ '-' ∉ first
    ∧ ',' ∉ first ++ last
    ∧ (first = [] ∧ (∃ n, Signed last n)
      ∨ ∃ m, (Digits first m ∨ Signed first m)
        ∧ (last = [] ∨ (∃ n, Digits last n ∨ Signed last n) ∨ length ≤ m)
        ∧ ¬(Digits first m ∧ (last = [] ∨ ∃ n, Digits last n)))

/-! ## Headers that are cut at a dash -/

private theorem dash_notMem {text : Text} {n : ℕ} (h : Digits text n) : '-' ∉ text :=
  h.notMem (by decide)

private theorem comma_notMem {text : Text} {n : ℕ} (h : Digits text n) : ',' ∉ text :=
  h.notMem (by decide)

private theorem parse_eq_some {text : Text} {n : ℕ} :
    Text.parseU64 text = some n ↔ Digits text n ∨ Signed text n := Text.parseU64_eq_some

private theorem exists_spells {first last : Text} (hdash : '-' ∉ first) :
    (∃ spec, Spells (first ++ '-' :: last) spec) ↔ (first = [] ∧ ∃ n, Digits last n)
      ∨ ∃ m, Digits first m ∧ (last = [] ∨ ∃ n, Digits last n) := by
  constructor
  · rintro ⟨spec, h⟩
    generalize hset : first ++ '-' :: last = set at h
    cases h with
    | onward hfirst =>
      obtain ⟨rfl, rfl⟩ := Text.append_cons_inj hdash (dash_notMem hfirst) hset
      exact .inr ⟨_, hfirst, .inl rfl⟩
    | between hfirst hlast =>
      obtain ⟨rfl, rfl⟩ := Text.append_cons_inj hdash (dash_notMem hfirst) hset
      exact .inr ⟨_, hfirst, .inr ⟨_, hlast⟩⟩
    | suffix hlast =>
      obtain ⟨rfl, rfl⟩ := Text.append_cons_inj hdash List.not_mem_nil hset
      exact .inl ⟨rfl, _, hlast⟩
  · rintro (⟨rfl, n, hlast⟩ | ⟨m, hfirst, rfl | ⟨n, hlast⟩⟩)
    · exact ⟨_, .suffix hlast⟩
    · exact ⟨_, .onward hfirst⟩
    · exact ⟨_, .between hfirst hlast⟩

/-- A header after its unit, cut at its first dash. -/
theorem resolve_of_dash {header first last : Text} {length : ℕ}
    (hheader : Text.trim header = "bytes=".toList ++ (first ++ '-' :: last)) (hdash : '-' ∉ first)
    (hcomma : ',' ∉ first ++ last) :
    resolve (some header) length = if first = [] then suffix last length else
      match Text.parseU64 first with
      | none => .whole
      | some m =>
        if length ≤ m then .unsatisfiable
        else
          match lastOf last length with
          | none => .whole
          | some n => if n < m then .unsatisfiable else .part ⟨m, n⟩ := by
  have hset : ',' ∉ first ++ '-' :: last := by
    rw [List.mem_append, List.mem_cons]
    rw [List.mem_append] at hcomma
    rintro (h | h | h)
    · exact hcomma (.inl h)
    · exact absurd h (by decide)
    · exact hcomma (.inr h)
  rw [resolve, Option.bind_some, hheader, Text.stripPrefix_append]
  dsimp only
  rw [if_neg hset]
  generalize hcut : Text.splitOnce ['-'] (first ++ '-' :: last) = cut
  obtain rfl : cut = some (first, last) :=
    hcut.symm.trans (Text.splitOnce_eq_some.mpr ⟨rfl, hdash⟩)
  rfl

/-- A header without its unit, with a comma or without a dash is ignored. -/
theorem resolve_eq_whole {header : Text} {length : ℕ}
    (h : ∀ first last, Text.trim header = "bytes=".toList ++ (first ++ '-' :: last) → '-' ∉ first →
      ',' ∈ first ++ last) : resolve (some header) length = .whole := by
  rw [resolve, Option.bind_some]
  cases hstrip : Text.stripPrefix "bytes=".toList (Text.trim header) with
  | none => rfl
  | some set =>
    have hheader := Text.stripPrefix_eq_some.mp hstrip
    dsimp only
    split
    · rfl
    · next hcomma =>
      cases hsplit : Text.splitOnce ['-'] set with
      | none => rfl
      | some halves =>
        obtain ⟨first, last⟩ := halves
        obtain ⟨rfl, hdash⟩ := Text.splitOnce_eq_some.mp hsplit
        have := h first last hheader hdash
        refine absurd ?_ hcomma
        rw [List.mem_append] at this ⊢
        exact this.imp_right (List.mem_cons_of_mem _)

private theorem lastOf_eq_none {last : Text} {length : ℕ} :
    lastOf last length = none ↔ last ≠ [] ∧ ∀ n, ¬(Digits last n ∨ Signed last n) := by
  rw [lastOf]
  split
  · next hnil => simp [hnil]
  · next hnil =>
    rw [Option.map_eq_none_iff, Option.eq_none_iff_forall_ne_some]
    simp only [ne_eq, hnil, not_false_eq_true, true_and]
    exact forall_congr' fun n ↦ not_congr parse_eq_some

/-- A header that is cut at a dash is ignored exactly where a number the resolver looks at is
none. -/
private theorem resolve_ne_whole {header first last : Text} {length : ℕ}
    (hheader : Text.trim header = "bytes=".toList ++ (first ++ '-' :: last)) (hdash : '-' ∉ first)
    (hcomma : ',' ∉ first ++ last) :
    resolve (some header) length ≠ .whole ↔ (first = [] ∧ ∃ n, Digits last n ∨ Signed last n)
      ∨ ∃ m, (Digits first m ∨ Signed first m)
        ∧ (last = [] ∨ (∃ n, Digits last n ∨ Signed last n) ∨ length ≤ m) := by
  -- an empty first part is a suffix range, whose number is then the last part
  have hnil : ∀ m, ¬(Digits ([] : Text) m ∨ Signed [] m) := by
    rintro m (h | ⟨digits, h, -⟩)
    · exact h.ne_nil rfl
    · exact List.cons_ne_nil _ _ h.symm
  rw [resolve_of_dash hheader hdash hcomma]
  split
  · next hfirst =>
    subst hfirst
    rw [suffix]
    cases hlast : Text.parseU64 last with
    | none =>
      have : ∀ n, ¬(Digits last n ∨ Signed last n) := fun n h ↦ by
        exact absurd (hlast.symm.trans (parse_eq_some.mpr h)) (by simp)
      simp [this, hnil]
    | some n =>
      refine ⟨fun _ ↦ .inl ⟨rfl, n, parse_eq_some.mp hlast⟩, fun _ ↦ ?_⟩
      dsimp only
      split <;> exact Requested.noConfusion
  · next hfirst =>
    simp only [hfirst, false_and, false_or]
    cases hm : Text.parseU64 first with
    | none =>
      have : ∀ m, ¬(Digits first m ∨ Signed first m) := fun m h ↦ by
        exact absurd (hm.symm.trans (parse_eq_some.mpr h)) (by simp)
      simp [this]
    | some m =>
      have hunique : ∀ m', Digits first m' ∨ Signed first m' → m' = m := fun m' h ↦
        Option.some.inj ((parse_eq_some.mpr h).symm.trans hm)
      dsimp only
      split
      · -- a span that starts past the end is refused, whatever its last part is
        next hle =>
        refine ⟨fun _ ↦ ⟨m, parse_eq_some.mp hm, .inr (.inr hle)⟩, fun _ ↦ ?_⟩
        exact Requested.noConfusion
      · next hlt =>
        cases hn : lastOf last length with
        | none =>
          obtain ⟨hne, hnone⟩ := lastOf_eq_none.mp hn
          refine ⟨fun h ↦ absurd rfl h, ?_⟩
          rintro ⟨m', hm', h | ⟨n, h⟩ | h⟩
          · exact absurd h hne
          · exact absurd h (hnone n)
          · exact absurd (hunique m' hm' ▸ h) hlt
        | some n =>
          refine ⟨fun _ ↦ ⟨m, parse_eq_some.mp hm, ?_⟩, fun _ ↦ ?_⟩
          · by_contra hnot
            simp only [not_or, not_exists] at hnot
            rw [lastOf_eq_none.mpr ⟨hnot.1, fun n ↦ not_or.mpr (hnot.2.1 n)⟩] at hn
            exact absurd hn (by simp)
          · dsimp only
            split <;> exact Requested.noConfusion

/-! ## The resolver and the grammar -/

/-- The resolver follows the grammar. -/
theorem resolve_of_means {header : Text} {spec : Spec} {length : ℕ} (hlength : 0 < length)
    (h : Means header spec) : resolve (some header) length = spec.select length := by
  have hcomma : ∀ {first last : Text}, ',' ∉ first → ',' ∉ last → ',' ∉ first ++ last :=
    fun hfirst hlast h ↦ (List.mem_append.mp h).elim hfirst hlast
  obtain ⟨set, hheader, hspells⟩ := h
  cases hspells with
  | @onward first m hfirst =>
    rw [resolve_of_dash hheader (dash_notMem hfirst)
      (hcomma (comma_notMem hfirst) List.not_mem_nil), if_neg hfirst.ne_nil,
      parse_eq_some.mpr (.inl hfirst), lastOf, if_pos rfl, Spec.select]
    dsimp only
    split
    · rfl
    · rw [if_neg (by omega)]
  | @between first last m n hfirst hlast =>
    rw [resolve_of_dash hheader (dash_notMem hfirst)
      (hcomma (comma_notMem hfirst) (comma_notMem hlast)), if_neg hfirst.ne_nil,
      parse_eq_some.mpr (.inl hfirst), lastOf, if_neg hlast.ne_nil,
      parse_eq_some.mpr (.inl hlast), Option.map_some, Spec.select]
    dsimp only
    split
    · next hle => rw [if_pos (.inl hle)]
    · next hlt =>
      by_cases hnm : n < m
      · rw [if_pos (by omega), if_pos (.inr hnm)]
      · rw [if_neg (by omega), if_neg (not_or.mpr ⟨hlt, hnm⟩)]
  | @suffix last n hlast =>
    rw [resolve_of_dash hheader List.not_mem_nil (hcomma List.not_mem_nil (comma_notMem hlast)),
      if_pos rfl, Range.suffix, parse_eq_some.mpr (.inl hlast), Spec.select]
    dsimp only
    split
    · rfl
    · have hmin : length - n = length - min n length := by omega
      rw [hmin]

private theorem not_signed_of_digits {text : Text} {m n : ℕ} (h : Digits text m) :
    ¬Signed text n := by
  rintro ⟨digits, rfl, -⟩
  exact absurd (h.digit '+' List.mem_cons_self) (by decide)

theorem Stray.not_means {header : Text} {length : ℕ} (h : Stray header length) (spec : Spec) :
    ¬Means header spec := by
  obtain ⟨first, last, hheader, hdash, -, hstray⟩ := h
  rintro ⟨set, hset, hspells⟩
  obtain rfl : set = first ++ '-' :: last := List.append_cancel_left (hset.symm.trans hheader)
  obtain ⟨rfl, n, hlast⟩ | ⟨m, hfirst, hlast⟩ := (exists_spells hdash).mp ⟨spec, hspells⟩
  · obtain ⟨-, n', hsigned⟩ | ⟨m, hfirst | ⟨digits, hfirst, -⟩, -⟩ := hstray
    · exact not_signed_of_digits hlast hsigned
    · exact hfirst.ne_nil rfl
    · exact List.cons_ne_nil _ _ hfirst.symm
  · obtain ⟨rfl, -⟩ | ⟨m', hfirst' | hsigned, -, hnot⟩ := hstray
    · exact hfirst.ne_nil rfl
    · exact hnot ⟨hfirst', hlast⟩
    · exact not_signed_of_digits hfirst hsigned

/-- The resolver follows the grammar, and ignores what is not in it, on every header that is not
stray and on no other. -/
theorem follows_grammar_iff (header : Text) {length : ℕ} (hlength : 0 < length) :
    ((∀ spec, Means header spec → resolve (some header) length = spec.select length)
      ∧ ((∀ spec, ¬Means header spec) → resolve (some header) length = .whole))
    ↔ ¬Stray header length := by
  constructor
  · rintro ⟨-, hwhole⟩ hstray
    have hresolve := hwhole hstray.not_means
    obtain ⟨first, last, hheader, hdash, hcomma, hfields⟩ := hstray
    refine (resolve_ne_whole hheader hdash hcomma).mpr ?_ hresolve
    obtain ⟨hnil, n, hlast⟩ | ⟨m, hfirst, hlast, -⟩ := hfields
    · exact .inl ⟨hnil, n, .inr hlast⟩
    · exact .inr ⟨m, hfirst, hlast⟩
  · intro hstray
    refine ⟨fun spec ↦ resolve_of_means hlength, fun hnone ↦ ?_⟩
    by_cases hcut : ∀ first last, Text.trim header = "bytes=".toList ++ (first ++ '-' :: last) →
        '-' ∉ first → ',' ∈ first ++ last
    · exact resolve_eq_whole hcut
    · push Not at hcut
      obtain ⟨first, last, hheader, hdash, hcomma⟩ := hcut
      by_contra hne
      have hformed : ¬∃ spec, Spells (first ++ '-' :: last) spec :=
        fun ⟨spec, hspells⟩ ↦ hnone spec ⟨_, hheader, hspells⟩
      rw [exists_spells hdash] at hformed
      refine hstray ⟨first, last, hheader, hdash, hcomma, ?_⟩
      obtain ⟨hnil, n, hlast | hlast⟩ | ⟨m, hfirst, hlast⟩ :=
        (resolve_ne_whole hheader hdash hcomma).mp hne
      · exact absurd (.inl ⟨hnil, n, hlast⟩) hformed
      · exact .inl ⟨hnil, n, hlast⟩
      · exact .inr ⟨m, hfirst, hlast, fun h ↦ hformed (.inr ⟨m, h⟩)⟩

/-- A resumed download of a thousand bytes is in the grammar. -/
theorem follows_grammar_resume :
    (∀ spec, Means "bytes=100-".toList spec →
        resolve (some "bytes=100-".toList) 1000 = spec.select 1000)
      ∧ ((∀ spec, ¬Means "bytes=100-".toList spec) →
        resolve (some "bytes=100-".toList) 1000 = .whole) := by
  have hdigits : Digits "100".toList 100 :=
    Text.digits_of_all (by decide) (by decide) (by decide) (by decide)
  have hmeans : Means "bytes=100-".toList (.onward 100) :=
    ⟨"100-".toList, by decide, .onward hdigits⟩
  exact (follows_grammar_iff "bytes=100-".toList (by decide)).mpr fun h ↦ h.not_means _ hmeans

/-- Past the end, what follows the dash is not looked at. -/
theorem not_follows_grammar_def : (∀ spec, ¬Means "bytes=1000-def".toList spec)
    ∧ resolve (some "bytes=1000-def".toList) 1000 = .unsatisfiable := by
  have hstray : Stray "bytes=1000-def".toList 1000 := by
    refine ⟨"1000".toList, "def".toList, by decide, by decide, by decide, .inr ⟨1000, .inl ?_,
      .inr (.inr le_rfl), ?_⟩⟩
    · exact Text.digits_of_all (by decide) (by decide) (by decide) (by decide)
    · rintro ⟨-, h | ⟨n, h⟩⟩
      · exact absurd h (by decide)
      · exact absurd (h.digit 'd' (by decide)) (by decide)
  exact ⟨hstray.not_means, by decide⟩

end Range

end Bincache
