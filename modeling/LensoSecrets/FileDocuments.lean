import LensoSecrets.OrderedMaps
import Mathlib.Data.String.Basic

/-!
# The decrypted document

A JSON value keeps the fields of an object as they are written, so a repeated name
is visible. `FileDocument` is decoded from it as its derived decoder does: repeated,
unknown and missing fields of the document are errors, an array stands for the fields
in order, and the `secrets` map is filled by inserting one written entry after another.
-/
namespace LensoSecrets.FileDocuments
open OrderedMaps

inductive Number where
  | unsigned (value : ℕ)
  | negativeOrFloat
deriving DecidableEq

inductive Json where
  | null
  | bool (value : Bool)
  | number (value : Number)
  | string (value : String)
  | array (items : List Json)
  | object (fields : List (String × Json))

/-- The two fields of the document, with its secrets read as a `σ`. -/
structure DocumentFields (σ : Type) where
  version : ℕ
  secrets : σ
deriving DecidableEq

abbrev FileDocument := DocumentFields (OrderedMap String String)

/-- The document as written: every entry of the secrets object, in order of appearance. -/
abbrev WrittenDocument := DocumentFields (List (String × String))

/-- `u32` -/
def deserializeVersion : Json → Option ℕ
  | .number (.unsigned value) => if value < 2 ^ 32 then some value else none
  | _ => none

def stringEntry (field : String × Json) : Option (String × String) :=
  match field.2 with
  | .string value => some (field.1, value)
  | _ => none

/-- The entries of an object of strings. -/
def stringEntries : Json → Option (List (String × String))
  | .object fields => fields.mapM stringEntry
  | _ => none

/-- `BTreeMap<String, String>` -/
def deserializeSecrets (json : Json) : Option (OrderedMap String String) :=
  (stringEntries json).map OrderedMap.ofEntries

section
variable {σ τ : Type}

/-- The fields seen so far by `visit_map`. -/
structure SeenFields (σ : Type) where
  version : Option ℕ
  secrets : Option σ

def visitField (secretsOf : Json → Option σ) (seen : SeenFields σ) (field : String × Json) :
    Option (SeenFields σ) :=
  if field.1 = "version" then
    if seen.version.isSome then none
    else (deserializeVersion field.2).map (fun version => { seen with version := some version })
  else if field.1 = "secrets" then
    if seen.secrets.isSome then none
    else (secretsOf field.2).map (fun secrets => { seen with secrets := some secrets })
  else none

def visitMap (secretsOf : Json → Option σ) (fields : List (String × Json)) :
    Option (DocumentFields σ) := do
  let seen ← fields.foldlM (visitField secretsOf) ⟨none, none⟩
  let version ← seen.version
  let secrets ← seen.secrets
  some ⟨version, secrets⟩

def visitSeq (secretsOf : Json → Option σ) : List Json → Option (DocumentFields σ)
  | [version, secrets] => do
    let version ← deserializeVersion version
    let secrets ← secretsOf secrets
    some ⟨version, secrets⟩
  | _ => none

def deserializeDocument (secretsOf : Json → Option σ) : Json → Option (DocumentFields σ)
  | .object fields => visitMap secretsOf fields
  | .array items => visitSeq secretsOf items
  | _ => none

end

/-- The derived decoder of `FileDocument`. -/
def deserialize : Json → Option FileDocument := deserializeDocument deserializeSecrets

def written : Json → Option WrittenDocument := deserializeDocument stringEntries

/-- The document as decoded keeps the last entry written for each name. -/
def WrittenDocument.decoded (W : WrittenDocument) : FileDocument :=
  ⟨W.version, OrderedMap.ofEntries W.secrets⟩

variable {σ τ : Type} (secretsOf : Json → Option σ) (f : σ → τ)

def SeenFields.map (seen : SeenFields σ) : SeenFields τ := ⟨seen.version, seen.secrets.map f⟩

def DocumentFields.map (document : DocumentFields σ) : DocumentFields τ :=
  ⟨document.version, f document.secrets⟩

theorem visitField_map (seen : SeenFields σ) (field : String × Json) :
    visitField (fun json => (secretsOf json).map f) (seen.map f) field =
      (visitField secretsOf seen field).map (SeenFields.map f) := by
  obtain ⟨version, secrets⟩ := seen
  simp only [visitField, SeenFields.map, Option.isSome_map]
  by_cases hv : field.1 = "version"
  · rw [if_pos hv, if_pos hv]
    cases version with
    | some v => rfl
    | none => cases deserializeVersion field.2 <;> rfl
  · rw [if_neg hv, if_neg hv]
    by_cases hs : field.1 = "secrets"
    · rw [if_pos hs, if_pos hs]
      cases secrets with
      | some m => rfl
      | none => cases secretsOf field.2 <;> rfl
    · rw [if_neg hs, if_neg hs]
      rfl

theorem foldlM_visitField_map (fields : List (String × Json)) (seen : SeenFields σ) :
    fields.foldlM (visitField fun json => (secretsOf json).map f) (seen.map f) =
      (fields.foldlM (visitField secretsOf) seen).map (SeenFields.map f) := by
  induction fields generalizing seen with
  | nil => rfl
  | cons field fields ih =>
    rw [List.foldlM_cons, List.foldlM_cons, visitField_map]
    cases visitField secretsOf seen field with
    | none => rfl
    | some next => exact ih next

theorem deserializeDocument_map (json : Json) :
    deserializeDocument (fun json => (secretsOf json).map f) json =
      (deserializeDocument secretsOf json).map (DocumentFields.map f) := by
  cases json with
  | object fields =>
    have hfold := foldlM_visitField_map secretsOf f fields ⟨none, none⟩
    simp only [deserializeDocument, visitMap]
    rw [show (⟨none, none⟩ : SeenFields τ) = SeenFields.map f ⟨none, none⟩ from rfl, hfold]
    cases fields.foldlM (visitField secretsOf) ⟨none, none⟩ with
    | none => rfl
    | some seen =>
      obtain ⟨version, secrets⟩ := seen
      cases version <;> cases secrets <;> rfl
  | array items =>
    match items with
    | [] | [_] | _ :: _ :: _ :: _ => rfl
    | [version, secrets] =>
      simp only [deserializeDocument, visitSeq]
      cases deserializeVersion version <;> cases secretsOf secrets <;> rfl
  | null | bool | number | string => rfl

theorem deserialize_eq (json : Json) :
    deserialize json = (written json).map WrittenDocument.decoded :=
  deserializeDocument_map stringEntries OrderedMap.ofEntries json

end LensoSecrets.FileDocuments
