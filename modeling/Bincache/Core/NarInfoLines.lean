import Bincache.Core.NarInfoParse
import Bincache.Lib.KeyedFold
import Bincache.Specimen

/-!
# The lines of a narinfo

The parser folds over the lines of a body and overwrites, collects or passes over. Each line that it
knows works on the field it names and on no other, so what a body means does not depend on how the
lines of different fields are mixed, nor on lines that it does not know; and a required field is
missing exactly when it has no line.
-/

namespace Bincache

namespace NarInfo

/-! ## What a line names -/

/-- A line of this field, with a value or bare. -/
def Field.Line (field : Field) (line : Text) : Prop :=
  (∃ value, line = field.render ++ ": ".toList ++ value) ∨ line = field.render ++ [':']

/-- A line that says nothing: an empty one, or one whose key is no field's. A key ends at the first
colon that a space follows. -/
def Foreign (line : Text) : Prop :=
  line = [] ∨ ∃ key, ¬": ".toList <:+: key ∧ (∀ field : Field, field.render ≠ key)
    ∧ ((∃ value, line = key ++ ": ".toList ++ value) ∨ line = key ++ [':'])

/-- The key of a line, if it is a field's. -/
def fieldOf (line : Text) : Option Field :=
  match splitLine line with
  | .ok (key, _) => Field.parse key
  | .error _ => none

/-- A key that holds no colon with a space after it is cut off at the one that ends it. -/
private theorem splitOnce_key {key : Text} (value : Text) (h : ¬[':', ' '] <:+: key) :
    Text.splitOnce [':', ' '] (key ++ [':', ' '] ++ value) = some (key, value) := by
  induction key with
  | nil => rfl
  | cons c key ih =>
    have hkey : ¬[':', ' '] <:+: key := fun hin ↦ h (hin.trans (List.suffix_cons c key).isInfix)
    have hstrip : Text.stripPrefix [':', ' '] (c :: (key ++ [':', ' '] ++ value)) = none := by
      rw [Option.eq_none_iff_forall_ne_some]
      intro rest hrest
      obtain ⟨rfl, heq⟩ := List.cons.inj (Text.stripPrefix_eq_some.mp hrest)
      rcases key with _ | ⟨d, key⟩
      · exact absurd (List.cons.inj heq).1 (by decide)
      · obtain ⟨rfl, -⟩ := List.cons.inj heq
        exact h (List.prefix_append [':', ' '] key).isInfix
    rw [List.cons_append, List.cons_append, Text.splitOnce, hstrip]
    dsimp only
    rw [ih hkey]
    rfl

private theorem splitOnce_bare {key : Text} (h : ¬": ".toList <:+: key) :
    Text.splitOnce ": ".toList (key ++ [':']) = none := by
  rw [Option.eq_none_iff_forall_ne_some]
  rintro ⟨before, after⟩ hsplit
  have heq := Text.append_of_splitOnce hsplit
  -- the space would have to be the last character of the line, which is a colon, or in the key
  rcases List.eq_nil_or_concat after with rfl | ⟨after, c, rfl⟩
  · rw [List.append_nil] at heq
    have hlast := congrArg List.getLast? heq
    rw [List.getLast?_concat, List.getLast?_append_of_ne_nil _ (by decide)] at hlast
    exact absurd hlast (by decide)
  · rw [List.concat_eq_append, ← List.append_assoc] at heq
    obtain ⟨hkey, -⟩ := List.append_inj' heq rfl
    exact h ⟨before, after, hkey.symm⟩

private theorem splitLine_key {key line : Text} (h : ¬": ".toList <:+: key)
    (hline : (∃ value, line = key ++ ": ".toList ++ value) ∨ line = key ++ [':']) :
    ∃ value, splitLine line = .ok (key, value) := by
  obtain ⟨value, rfl⟩ | rfl := hline
  · have hcut : Text.splitOnce ": ".toList (key ++ ": ".toList ++ value) = some (key, value) :=
      splitOnce_key value h
    exact ⟨value, by rw [splitLine, hcut]⟩
  · have hstrip : Text.stripSuffix [':'] (key ++ [':']) = some key :=
      Text.stripSuffix_eq_some.mpr rfl
    exact ⟨[], by rw [splitLine, splitOnce_bare h, hstrip]⟩

private theorem render_key (field : Field) : ¬": ".toList <:+: field.render := by
  intro hin
  have hmem : ':' ∈ field.render := hin.subset List.mem_cons_self
  cases field <;> exact absurd hmem (by decide)

theorem Field.parse_eq_some {key : Text} {field : Field} :
    Field.parse key = some field ↔ field.render = key := by
  constructor
  · intro h
    have hfound := List.find?_some h
    exact of_decide_eq_true hfound
  · rintro rfl
    exact Field.parse_render field

theorem fieldOf_eq_some {line : Text} {field : Field} :
    fieldOf line = some field ↔ field.Line line := by
  rw [fieldOf]
  constructor
  · intro h
    cases hsplit : splitLine line with
    | error error =>
      rw [hsplit] at h
      cases h
    | ok halves =>
      obtain ⟨key, value⟩ := halves
      rw [hsplit] at h
      obtain rfl := Field.parse_eq_some.mp h
      rw [splitLine] at hsplit
      split at hsplit
      · next split hcut =>
        obtain rfl := Except.ok.inj hsplit
        exact .inl ⟨value, Text.append_of_splitOnce hcut⟩
      · split at hsplit
        · next key hstrip =>
          obtain ⟨rfl, -⟩ := Prod.mk.inj (Except.ok.inj hsplit)
          exact .inr (Text.stripSuffix_eq_some.mp hstrip)
        · cases hsplit
  · intro h
    obtain ⟨value, hsplit⟩ := splitLine_key (render_key field) h
    rw [hsplit]
    exact Field.parse_render field

instance (field : Field) (line : Text) : Decidable (field.Line line) :=
  decidable_of_iff _ fieldOf_eq_some

/-- The same lines in another order, in which those of each field follow each other as before, and
with lines among them that say nothing. -/
def Rearranged (lines lines' : List Text) : Prop :=
  ∃ more, (∀ line ∈ more, Foreign line) ∧ lines'.Perm (more ++ lines)
    ∧ ∀ field : Field, lines'.filter (field.Line ·) = lines.filter (field.Line ·)

/-! ## What a line does to the draft -/

/-- What a draft holds of a field. -/
abbrev Field.Part : Field → Type
  | .storePath | .deriver => Option StorePath
  | .url | .ca => Option Text
  | .compression => Option Compression
  | .fileHash | .narHash => Option Sha256
  | .fileSize | .narSize => Option ℕ
  | .references => List StorePath
  | .sig => List Signature

namespace Draft

def get (draft : Draft) : (field : Field) → field.Part
  | .storePath => draft.storePath
  | .url => draft.url
  | .compression => draft.compression
  | .fileHash => draft.fileHash
  | .fileSize => draft.fileSize
  | .narHash => draft.narHash
  | .narSize => draft.narSize
  | .references => draft.references
  | .deriver => draft.deriver
  | .sig => draft.sigs
  | .ca => draft.ca

def modify (draft : Draft) : (field : Field) → (field.Part → field.Part) → Draft
  | .storePath, f => { draft with storePath := f draft.storePath }
  | .url, f => { draft with url := f draft.url }
  | .compression, f => { draft with compression := f draft.compression }
  | .fileHash, f => { draft with fileHash := f draft.fileHash }
  | .fileSize, f => { draft with fileSize := f draft.fileSize }
  | .narHash, f => { draft with narHash := f draft.narHash }
  | .narSize, f => { draft with narSize := f draft.narSize }
  | .references, f => { draft with references := f draft.references }
  | .deriver, f => { draft with deriver := f draft.deriver }
  | .sig, f => { draft with sigs := f draft.sigs }
  | .ca, f => { draft with ca := f draft.ca }

theorem get_modify (draft : Draft) {field : Field} (f : field.Part → field.Part) :
    (draft.modify field f).get field = f (draft.get field) := by
  cases field <;> rfl

theorem get_modify_of_ne (draft : Draft) {field other : Field} (f : field.Part → field.Part)
    (h : other ≠ field) : (draft.modify field f).get other = draft.get other := by
  cases field <;> cases other <;> first | rfl | exact absurd rfl h

theorem ext_get {a b : Draft} (h : ∀ field, a.get field = b.get field) : a = b := by
  obtain ⟨⟩ := a
  obtain ⟨⟩ := b
  congr
  exacts [h .storePath, h .url, h .compression, h .fileHash, h .fileSize, h .narHash, h .narSize,
    h .references, h .deriver, h .sig, h .ca]

end Draft

variable [Crates] {dir : Dir}

/-- Whether a value is read does not depend on the draft, and it works on its field alone. -/
theorem absorb_eq_modify {draft draft' : Draft} {field : Field} {value : Text}
    (h : absorb draft field value dir = .ok draft') :
    ∃ f : field.Part → field.Part, ∀ other,
      absorb other field value dir = .ok (other.modify field f) := by
  cases field with
  | storePath =>
    obtain ⟨path, hpath, -⟩ := of_bind_eq_ok h
    exact ⟨fun _ ↦ some path, fun other ↦ by rw [absorb, hpath]; rfl⟩
  | url => exact ⟨fun _ ↦ some value, fun _ ↦ rfl⟩
  | compression =>
    rw [absorb] at h
    cases hvalue : Compression.parse value with
    | none =>
      rw [hvalue] at h
      cases h
    | some compression => exact ⟨fun _ ↦ some compression, fun other ↦ by rw [absorb, hvalue]; rfl⟩
  | fileHash =>
    obtain ⟨hash, hhash, -⟩ := of_bind_eq_ok h
    exact ⟨fun _ ↦ some hash, fun other ↦ by rw [absorb, hhash]; rfl⟩
  | fileSize =>
    obtain ⟨size, hsize, -⟩ := of_bind_eq_ok h
    exact ⟨fun _ ↦ some size, fun other ↦ by rw [absorb, hsize]; rfl⟩
  | narHash =>
    obtain ⟨hash, hhash, -⟩ := of_bind_eq_ok h
    exact ⟨fun _ ↦ some hash, fun other ↦ by rw [absorb, hhash]; rfl⟩
  | narSize =>
    obtain ⟨size, hsize, -⟩ := of_bind_eq_ok h
    exact ⟨fun _ ↦ some size, fun other ↦ by rw [absorb, hsize]; rfl⟩
  | references =>
    obtain ⟨references, hreferences, -⟩ := of_bind_eq_ok h
    exact ⟨fun before ↦ before ++ references, fun other ↦ by rw [absorb, hreferences]; rfl⟩
  | deriver =>
    by_cases hknown : value ≠ deriverUnknown
    · rw [absorb, if_pos hknown] at h
      obtain ⟨deriver, hderiver, -⟩ := of_bind_eq_ok h
      exact ⟨fun _ ↦ some deriver, fun other ↦ by rw [absorb, if_pos hknown, hderiver]; rfl⟩
    · -- a deriver that is not known leaves the draft as it is
      exact ⟨id, fun other ↦ by rw [absorb, if_neg hknown]; rfl⟩
  | sig =>
    obtain ⟨signature, hsignature, -⟩ := of_bind_eq_ok h
    exact ⟨fun before ↦ before ++ [signature], fun other ↦ by rw [absorb, hsignature]; rfl⟩
  | ca => exact ⟨fun _ ↦ some value, fun _ ↦ rfl⟩

theorem absorbLine_of_fieldOf {field : Field} {line : Text} (h : fieldOf line = some field) :
    ∃ value, ∀ draft, absorbLine dir draft line = absorb draft field value dir := by
  obtain ⟨value, hsplit⟩ := splitLine_key (render_key field) (fieldOf_eq_some.mp h)
  refine ⟨value, fun draft ↦ ?_⟩
  rw [absorbLine, hsplit]
  dsimp only [bind, Except.bind]
  rw [Field.parse_render]

theorem keyed_absorbLine :
    KeyedFold.Keyed fieldOf (fun field a b ↦ Draft.get a field = b.get field) (absorbLine dir) where
  refl _ _ := rfl
  trans := Eq.trans
  symm := Eq.symm
  idles := by
    intro draft draft' line hline hstep other
    rw [fieldOf] at hline
    rw [absorbLine] at hstep ⊢
    cases hsplit : splitLine line with
    | error error =>
      rw [hsplit] at hstep
      cases hstep
    | ok halves =>
      obtain ⟨key, value⟩ := halves
      rw [hsplit] at hline
      dsimp only [bind, Except.bind] at hline ⊢
      rw [hline]
      rfl
  frames := by
    intro draft draft' line field other hline hne hstep
    obtain ⟨value, hvalue⟩ := @absorbLine_of_fieldOf _ dir _ _ hline
    rw [hvalue] at hstep
    obtain ⟨f, hf⟩ := absorb_eq_modify hstep
    obtain rfl := Except.ok.inj (hstep.symm.trans (hf draft))
    exact (draft.get_modify_of_ne f hne).symm
  follows := by
    intro draft draft' line field hline hstep other
    obtain ⟨value, hvalue⟩ := @absorbLine_of_fieldOf _ dir _ _ hline
    rw [hvalue] at hstep
    obtain ⟨f, hf⟩ := absorb_eq_modify hstep
    obtain rfl := Except.ok.inj (hstep.symm.trans (hf draft))
    refine ⟨other.modify field f, (hvalue other).trans (hf other), fun hagree ↦ ?_⟩
    rw [draft.get_modify, other.get_modify, hagree]

theorem Foreign.absorbLine {line : Text} (h : Foreign line) (hne : line ≠ []) (draft : Draft) :
    absorbLine dir draft line = .ok draft := by
  obtain rfl | ⟨key, hkey, hnone, hline⟩ := h
  · exact absurd rfl hne
  · obtain ⟨value, hsplit⟩ := splitLine_key hkey hline
    have hparse : Field.parse key = none := by
      rw [Option.eq_none_iff_forall_ne_some]
      exact fun field hfield ↦ hnone field (Field.parse_eq_some.mp hfield)
    rw [NarInfo.absorbLine, hsplit]
    dsimp only [bind, Except.bind]
    rw [hparse]
    rfl

/-! ## Bodies -/

omit [Crates] in
def Field.required : List Field := [.narSize, .url, .storePath, .fileHash, .fileSize, .narHash]

omit [Crates] in
theorem finish_of_lacking {draft draft' : Draft} {record : NarInfo} {field : Field}
    (hfield : field ∈ Field.required) (h : finish draft = .ok record)
    (hget : ∀ other, other ≠ field → draft'.get other = draft.get other)
    (hnone : draft'.get field = ({} : Draft).get field) :
    finish draft' = .error (.missing field) := by
  obtain ⟨narSize, hnarSize, h⟩ := of_bind_eq_ok h
  obtain ⟨url, hurl, h⟩ := of_bind_eq_ok h
  obtain ⟨storePath, hstorePath, h⟩ := of_bind_eq_ok h
  obtain ⟨fileHash, hfileHash, h⟩ := of_bind_eq_ok h
  obtain ⟨fileSize, hfileSize, h⟩ := of_bind_eq_ok h
  obtain ⟨narHash, hnarHash, -⟩ := of_bind_eq_ok h
  -- the fields before it are there, and so its own check is the first to fail
  have hnarSize' : field ≠ .narSize → draft'.narSize = draft.narSize := fun hne ↦ hget _ hne.symm
  have hurl' : field ≠ .url → draft'.url = draft.url := fun hne ↦ hget _ hne.symm
  have hstorePath' : field ≠ .storePath → draft'.storePath = draft.storePath :=
    fun hne ↦ hget _ hne.symm
  have hfileHash' : field ≠ .fileHash → draft'.fileHash = draft.fileHash :=
    fun hne ↦ hget _ hne.symm
  have hfileSize' : field ≠ .fileSize → draft'.fileSize = draft.fileSize :=
    fun hne ↦ hget _ hne.symm
  simp only [Field.required, List.mem_cons, List.not_mem_nil, or_false] at hfield
  rw [finish]
  rcases hfield with rfl | rfl | rfl | rfl | rfl | rfl
  · rw [show draft'.narSize = none from hnone]
    rfl
  · rw [hnarSize' (by decide), hnarSize, show draft'.url = none from hnone]
    rfl
  · rw [hnarSize' (by decide), hnarSize, hurl' (by decide), hurl,
      show draft'.storePath = none from hnone]
    rfl
  · rw [hnarSize' (by decide), hnarSize, hurl' (by decide), hurl, hstorePath' (by decide),
      hstorePath, show draft'.fileHash = none from hnone]
    rfl
  · rw [hnarSize' (by decide), hnarSize, hurl' (by decide), hurl, hstorePath' (by decide),
      hstorePath, hfileHash' (by decide), hfileHash, show draft'.fileSize = none from hnone]
    rfl
  · rw [hnarSize' (by decide), hnarSize, hurl' (by decide), hurl, hstorePath' (by decide),
      hstorePath, hfileHash' (by decide), hfileHash, hfileSize' (by decide), hfileSize,
      show draft'.narHash = none from hnone]
    rfl

/-- Lines of which each is in an accepted body, or says nothing, are read, and to the same draft but
for the fields of which they are not the same. -/
private theorem draft_of_lines {body body' : Text} {draft : Draft}
    (hdraft : ((Text.lines body).filter (· ≠ [])).foldlM (absorbLine dir) {} = .ok draft)
    (hlines : ∀ line ∈ Text.lines body', line ∈ Text.lines body ∨ Foreign line) :
    ∃ draft', ((Text.lines body').filter (· ≠ [])).foldlM (absorbLine dir) {} = .ok draft'
      ∧ (∀ field : Field, (Text.lines body').filter (field.Line ·)
          = (Text.lines body).filter (field.Line ·) → draft'.get field = draft.get field)
      ∧ ∀ field : Field, (Text.lines body').filter (field.Line ·) = [] →
        draft'.get field = ({} : Draft).get field := by
  have hkeys : ∀ (lines : List Text) (field : Field), ((lines.filter (· ≠ [])).filter
      (fieldOf · = some field)) = lines.filter (field.Line ·) := by
    intro lines field
    rw [List.filter_filter]
    refine List.filter_congr fun line _ ↦ ?_
    rw [← Bool.decide_and, decide_eq_decide, fieldOf_eq_some]
    refine and_iff_left_of_imp ?_
    rintro hfield rfl
    obtain ⟨value, hvalue⟩ | hbare := hfield
    · exact absurd (List.append_eq_nil_iff.mp hvalue.symm).1 (by simp)
    · exact absurd (List.append_eq_nil_iff.mp hbare.symm).2 (by simp)
  have hread : ∀ line ∈ (Text.lines body').filter (· ≠ []),
      line ∈ (Text.lines body).filter (· ≠ [])
        ∨ ∀ other, absorbLine dir other line = .ok other := by
    intro line hline
    obtain ⟨hmem, hne⟩ := List.mem_filter.mp hline
    obtain hmem | hforeign := hlines line hmem
    · exact .inl (List.mem_filter.mpr ⟨hmem, hne⟩)
    · exact .inr fun other ↦ hforeign.absorbLine (of_decide_eq_true hne) other
  obtain ⟨draft', hdraft', hagree⟩ := keyed_absorbLine.foldlM_congr hdraft hread
  refine ⟨draft', hdraft', fun field hsame ↦ ?_, fun field hnone ↦ ?_⟩
  · refine (hagree field ?_).symm
    rw [hkeys, hkeys, hsame]
  · exact (keyed_absorbLine.foldlM_absent hdraft' (by rw [hkeys, hnone])).symm

/-- What a body means does not depend on the order of lines of different fields, nor on lines that
say nothing; and without the lines of a required field it is refused for that field. -/
theorem parse_of_rearranged {body : Text} {record : NarInfo} (h : parse body dir = .ok record) :
    (∀ body', Rearranged (Text.lines body) (Text.lines body') → parse body' dir = .ok record)
      ∧ ∀ field ∈ Field.required, ∀ body',
        Rearranged ((Text.lines body).filter (¬Field.Line field ·)) (Text.lines body') →
          parse body' dir = .error (.missing field) := by
  obtain ⟨draft, hdraft, hfinish⟩ := of_bind_eq_ok h
  refine ⟨?_, ?_⟩
  · rintro body' ⟨more, hmore, hperm, hsame⟩
    -- a line is one of the body, or says nothing
    have hlines : ∀ line ∈ Text.lines body', line ∈ Text.lines body ∨ Foreign line := by
      intro line hline
      exact (List.mem_append.mp (hperm.mem_iff.mp hline)).symm.imp_right (hmore line)
    obtain ⟨draft', hdraft', hagree, -⟩ := draft_of_lines hdraft hlines
    obtain rfl := Draft.ext_get fun field ↦ hagree field (hsame field)
    rw [parse, hdraft']
    exact hfinish
  · rintro field hfield body' ⟨more, hmore, hperm, hsame⟩
    have hlines : ∀ line ∈ Text.lines body', line ∈ Text.lines body ∨ Foreign line := by
      intro line hline
      obtain hmem | hmem := List.mem_append.mp (hperm.mem_iff.mp hline)
      · exact .inr (hmore line hmem)
      · exact .inl (List.mem_of_mem_filter hmem)
    obtain ⟨draft', hdraft', hagree, habsent⟩ := draft_of_lines hdraft hlines
    rw [parse, hdraft']
    refine finish_of_lacking hfield hfinish (fun other hne ↦ hagree other ?_) (habsent field ?_)
    · -- a line names one field, so none of another's is gone
      rw [hsame, List.filter_filter]
      refine List.filter_congr fun line _ ↦ ?_
      rw [← Bool.decide_and, decide_eq_decide]
      refine and_iff_left_of_imp fun hother hline ↦ hne ?_
      exact Option.some.inj ((fieldOf_eq_some.mpr hother).symm.trans (fieldOf_eq_some.mpr hline))
    · rw [hsame, List.filter_filter, List.filter_eq_nil_iff]
      simp

end NarInfo

section Specimen

open Specimen

/-- The body of the push with a line that no field has, and another order of two lines. -/
def Specimen.annotated : Text :=
  "X-Built-By: hydra\n".toList
    ++ "URL: nar/10a83a91g1r50bdw8g4hn47m7j7m6angpabwc80l9c16nx11cw9d.nar\n".toList
    ++ "StorePath: /nix/store/00000000000000000000000000000000-a\n".toList
    ++ body.drop (("StorePath: /nix/store/00000000000000000000000000000000-a\n".toList
      ++ "URL: nar/10a83a91g1r50bdw8g4hn47m7j7m6angpabwc80l9c16nx11cw9d.nar\n".toList).length)

theorem NarInfo.parse_annotated : NarInfo.parse annotated dir = .ok declared := by
  refine (NarInfo.parse_of_rearranged parse_body).1 annotated
    ⟨["X-Built-By: hydra".toList], ?_, by decide +kernel, ?_⟩
  · intro line hline
    obtain rfl := List.mem_singleton.mp hline
    refine .inr ⟨"X-Built-By".toList, by decide, ?_, .inl ⟨"hydra".toList, rfl⟩⟩
    intro field
    cases field <;> decide
  · have hall : ∀ field ∈ Field.variants, (Text.lines annotated).filter (field.Line ·)
        = (Text.lines body).filter (field.Line ·) := by decide +kernel
    exact fun field ↦ hall field (by cases field <;> decide)

end Specimen

end Bincache
