import Bincache.Core.NarInfo

/-!
# Reading a narinfo body

A push sends the narinfo text it rendered locally. Lines are absorbed into a draft in order, and the
required fields are checked at the end, so a body that lacks one reports that rather than failing on
whichever line came first. Unknown keys are ignored, and an absent `Compression` means bzip2.
-/

namespace Bincache

namespace NarInfo

/-- The keys a body may carry. -/
inductive Field
  | storePath | url | compression | fileHash | fileSize | narHash | narSize | references | deriver
  | sig | ca
deriving DecidableEq, Repr

namespace Field

def variants : List Field :=
  [storePath, url, compression, fileHash, fileSize, narHash, narSize, references, deriver, sig, ca]

/-- The wire spelling. -/
def render : Field → Text
  | storePath => "StorePath".toList
  | url => "URL".toList
  | compression => "Compression".toList
  | fileHash => "FileHash".toList
  | fileSize => "FileSize".toList
  | narHash => "NarHash".toList
  | narSize => "NarSize".toList
  | references => "References".toList
  | deriver => "Deriver".toList
  | sig => "Sig".toList
  | ca => "CA".toList

def parse (text : Text) : Option Field := variants.find? fun field ↦ field.render = text

theorem parse_render (field : Field) : parse field.render = some field := by
  cases field <;> decide

end Field

/-- What nix writes in place of a deriver it does not know. -/
def deriverUnknown : Text := "unknown-deriver".toList

inductive ParseError
  | line (line : Text)
  | missing (field : Field)
  | path (field : Field) (source : StorePath.Error)
  | digest (field : Field) (source : Sha256.Error)
  | number (field : Field)
  | narSizeZero
  | algorithm
  | signature (source : Sign.Error)
deriving DecidableEq

/-- The fields read so far. -/
structure Draft where
  storePath : Option StorePath := none
  url : Option Text := none
  compression : Option Compression := none
  fileHash : Option Sha256 := none
  fileSize : Option ℕ := none
  narHash : Option Sha256 := none
  narSize : Option ℕ := none
  references : List StorePath := []
  deriver : Option StorePath := none
  sigs : List Signature := []
  ca : Option Text := none

def digestField [Crates] (field : Field) (value : Text) : Except ParseError Sha256 :=
  (Sha256.parse value).mapError (.digest field)

def numberField (field : Field) (value : Text) : Except ParseError ℕ :=
  match Text.parseU64 value with
  | some number => .ok number
  | none => .error (.number field)

def pathField (field : Field) (value : Text) : Except ParseError StorePath :=
  (StorePath.parse value).mapError (.path field)

theorem of_bind_eq_ok {ε α β : Type} {x : Except ε α} {f : α → Except ε β} {result : β}
    (h : x >>= f = .ok result) : ∃ value, x = .ok value ∧ f value = .ok result := by
  cases x with
  | error error => cases h
  | ok value => exact ⟨value, rfl, h⟩

variable [Crates]

/-- Reads the value of one field into the draft. A field given twice keeps the last value, and lists
grow. -/
def absorb (draft : Draft) (field : Field) (value : Text) (dir : Dir) :
    Except ParseError Draft :=
  match field with
  | .storePath => do
    let path ← (dir.parse value).mapError (.path field)
    pure { draft with storePath := some path }
  | .url => pure { draft with url := some value }
  | .compression =>
    match Compression.parse value with
    | some compression => pure { draft with compression := some compression }
    | none => throw .algorithm
  | .fileHash => do
    let hash ← digestField field value
    pure { draft with fileHash := some hash }
  | .fileSize => do
    let size ← numberField field value
    pure { draft with fileSize := some size }
  | .narHash => do
    let hash ← digestField field value
    pure { draft with narHash := some hash }
  | .narSize => do
    let size ← numberField field value
    pure { draft with narSize := some size }
  | .references => do
    let references ← ((value.splitOn ' ').filter (· ≠ [])).mapM (pathField field)
    pure { draft with references := draft.references ++ references }
  | .deriver =>
    if value ≠ deriverUnknown then do
      let deriver ← pathField field value
      pure { draft with deriver := some deriver }
    else pure draft
  | .sig => do
    let signature ← (Signature.parse value).mapError .signature
    pure { draft with sigs := draft.sigs ++ [signature] }
  | .ca => pure { draft with ca := some value }

/-- Cuts a line into its key and its value. A bare `Key:` has an empty value. -/
def splitLine (line : Text) : Except ParseError (Text × Text) :=
  match Text.splitOnce ": ".toList line with
  | some split => .ok split
  | none =>
    match Text.stripSuffix [':'] line with
    | some key => .ok (key, [])
    | none => .error (.line line)

def absorbLine (dir : Dir) (draft : Draft) (line : Text) : Except ParseError Draft := do
  let (key, value) ← splitLine line
  match Field.parse key with
  | some field => absorb draft field value dir
  | none => pure draft

omit [Crates] in
def required {α : Type} (field : Field) : Option α → Except ParseError α
  | some value => .ok value
  | none => .error (.missing field)

/-- Checks the required fields, in the order the source does. -/
def finish (draft : Draft) : Except ParseError NarInfo := do
  let narSize ← required .narSize draft.narSize
  let _ ← required .url (draft.url.filter (· ≠ []))
  let storePath ← required .storePath draft.storePath
  let fileHash ← required .fileHash draft.fileHash
  let fileSize ← required .fileSize draft.fileSize
  let narHash ← required .narHash draft.narHash
  if h : 0 < narSize then
    pure { storePath, compression := draft.compression.getD .bzip2, fileHash, fileSize, narHash,
           narSize := ⟨narSize, h⟩, references := draft.references, deriver := draft.deriver,
           sigs := draft.sigs, ca := draft.ca }
  else throw .narSizeZero

def parse (body : Text) (dir : Dir) : Except ParseError NarInfo := do
  let draft ← ((Text.lines body).filter (· ≠ [])).foldlM (absorbLine dir) {}
  finish draft

end NarInfo

end Bincache
