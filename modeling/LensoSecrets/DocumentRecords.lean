import LensoSecrets.EncryptedFileLoads

/-!
# The records of a loaded document

The checks of a load run on the map left after decoding. That map holds the entries
written in the plaintext exactly when no name is repeated; a repeated name is accepted
and its earlier entries are lost, unless the document is refused for another reason.
-/
namespace LensoSecrets.EncryptedFileProvider
open ByteReaders EarlyExit FileDocuments OrderedMaps QueryPrograms StandardLibrary

/-- The document as written in the plaintext that a load parses. -/
def Wrote (P : AcceptedPlugin) (h : History Access.Answer) (t : ℕ) (W : WrittenDocument) : Prop :=
  ∃ plaintext json, ⟨.fromSlice plaintext, some json⟩ ∈ Program.transcript h t P.load.run ∧
    written json = some W

/-- The written entries have distinct names, pass the checks, and are the document's. -/
structure KeepsEveryRecord (config : EncryptedFileConfig) (W : WrittenDocument)
    (document : FileDocument) : Prop where
  distinct : (W.secrets.map Prod.fst).Nodup
  nonempty : 1 ≤ W.secrets.length
  withinLimit : W.secrets.length ≤ config.maxRecords
  checked : ∀ name value, (name, value) ∈ W.secrets → validSourceName name = true ∧ value ≠ ""
  kept : ∀ name value, document.secrets.get? name = some value ↔ (name, value) ∈ W.secrets

def NoRecordLoss (P : AcceptedPlugin) (h : History Access.Answer) (t : ℕ) : Prop :=
  ∀ document, Program.result h t P.load.run = .ok document →
    ∃ W, Wrote P h t W ∧ KeepsEveryRecord P.config W document

/-- A written document that is refused whether or not it repeats a name. -/
def RefusedAnyway (config : EncryptedFileConfig) (W : WrittenDocument) : Prop :=
  W.version ≠ 1 ∨ config.maxRecords < (W.secrets.map Prod.fst).dedup.length ∨
    ∃ name value, W.secrets.reverse.lookup name = some value ∧
      (validSourceName name = false ∨ value = "")

variable {P : AcceptedPlugin} {h : History Access.Answer} {t : ℕ} {W : WrittenDocument}
variable {config : EncryptedFileConfig} {document : FileDocument}

theorem rejectedDocument_decoded :
    rejectedDocument config W.decoded = true ↔ W.secrets = [] ∨ RefusedAnyway config W := by
  simp only [rejectedDocument, WrittenDocument.decoded, Bool.or_eq_true, bne_iff_ne, ne_eq,
    OrderedMap.isEmpty_ofEntries, OrderedMap.len_ofEntries, decide_eq_true_iff,
    List.any_eq_true, RefusedAnyway]
  have hentries : (∃ entry, entry ∈ (OrderedMap.ofEntries W.secrets).entries ∧
        ((!validSourceName entry.1) = true ∨ entry.2.isEmpty = true)) ↔
      ∃ name value, W.secrets.reverse.lookup name = some value ∧
        (validSourceName name = false ∨ value = "") := by
    simp only [Prod.exists, ← OrderedMap.get?_eq_some, OrderedMap.get?_ofEntries,
      Bool.not_eq_true', String.isEmpty_iff]
  rw [hentries, or_assoc, or_assoc, or_left_comm]

/-- A load parses at most one document. -/
theorem Wrote.unique {W' : WrittenDocument} (hW : Wrote P h t W) (hW' : Wrote P h t W') :
    W = W' := by
  obtain ⟨plaintext, json, hmem, hjson⟩ := hW
  obtain ⟨plaintext', json', hmem', hjson'⟩ := hW'
  have hview := loadView P h t
  generalize Program.result h t P.load.run = result at hview
  generalize Program.transcript h t P.load.run = tr at hview hmem hmem'
  cases hview with
  | stopped hnone => exact absurd hmem (hnone plaintext _)
  | decoded parsed =>
    have hparsed := (mem_fromSlice.mp hmem).2.trans (mem_fromSlice.mp hmem').2.symm
    rw [Option.some.inj hparsed, hjson'] at hjson
    exact (Option.some.inj hjson).symm

/-- What a load returns, by the document written in the plaintext it parsed. -/
theorem result_of_wrote (hW : Wrote P h t W) :
    Program.result h t P.load.run =
      if rejectedDocument P.config W.decoded then .error () else .ok W.decoded := by
  obtain ⟨plaintext, json, hmem, hjson⟩ := hW
  have hview := loadView P h t
  generalize Program.result h t P.load.run = result at hview
  generalize Program.transcript h t P.load.run = tr at hview hmem
  cases hview with
  | stopped hnone => exact absurd hmem (hnone plaintext _)
  | decoded parsed hc hk hread =>
    obtain ⟨rfl, rfl⟩ := mem_fromSlice.mp hmem
    simp only [documentOf, Option.bind_some, deserialize_eq, hjson, Option.map_some]

/-- A load that returns a document has parsed a plaintext with a document in it. -/
theorem wrote_of_result (hr : Program.result h t P.load.run = .ok document) :
    ∃ W, Wrote P h t W := by
  have hview := loadView P h t
  unfold Wrote
  generalize Program.transcript h t P.load.run = tr at hview ⊢
  rw [hr] at hview
  generalize hres : Except.ok document = result at hview
  cases hview with
  | stopped hnone => contradiction
  | @decoded file key ciphertext plaintext passphrase stream parsed hc hk hread =>
    cases parsed with
    | none => contradiction
    | some json =>
      simp only [documentOf, Option.bind_some, deserialize_eq] at hres
      cases hjson : written json with
      | none => simp [hjson] at hres
      | some W => exact ⟨W, plaintext, json, mem_fromSlice.mpr ⟨rfl, rfl⟩, hjson⟩

/-- No record of a loaded document is empty. -/
theorem loaded_value_ne_empty {name value : String}
    (hr : Program.result h t P.load.run = .ok document)
    (hv : document.secrets.get? name = some value) : value ≠ "" := by
  obtain ⟨W, hW⟩ := wrote_of_result hr
  rw [result_of_wrote hW] at hr
  split_ifs at hr with hrejected
  obtain rfl := Except.ok.inj hr
  intro hempty
  have hentry := OrderedMap.get?_eq_some.mp hv
  apply hrejected
  simp only [rejectedDocument, Bool.or_eq_true, List.any_eq_true]
  exact Or.inr ⟨(name, value), hentry, Or.inr (by simp [hempty])⟩

/-- With distinct names the entries that pass the checks are the written ones. -/
theorem keepsEveryRecord_of_nodup (hn : (W.secrets.map Prod.fst).Nodup)
    (hr : rejectedDocument config W.decoded = false) :
    KeepsEveryRecord config W W.decoded := by
  have hok : ¬ (W.secrets = [] ∨ RefusedAnyway config W) := by
    rw [← rejectedDocument_decoded, hr]
    exact Bool.false_ne_true
  simp only [RefusedAnyway, not_or, not_exists, not_and, not_lt] at hok
  obtain ⟨hne, -, hlimit, hentries⟩ := hok
  have hkept : ∀ name value, W.decoded.secrets.get? name = some value ↔
      (name, value) ∈ W.secrets := fun _ _ => OrderedMap.get?_ofEntries_of_nodup hn
  refine ⟨hn, List.length_pos_of_ne_nil hne, ?_, ?_, hkept⟩
  · rwa [hn.dedup, List.length_map] at hlimit
  · intro name value hmem
    have hlookup := (hkept name value).mpr hmem
    rw [WrittenDocument.decoded, OrderedMap.get?_ofEntries] at hlookup
    obtain ⟨hname, hvalue⟩ := hentries name value hlookup
    exact ⟨Bool.not_eq_false _ ▸ hname, hvalue⟩

/-- No record is lost exactly when the parsed document repeats no name or is refused
for its version, its number of names or an entry that is the last of its name. -/
theorem noRecordLoss_iff (P : AcceptedPlugin) (h : History Access.Answer) (t : ℕ) :
    NoRecordLoss P h t ↔
      ∀ W, Wrote P h t W → (W.secrets.map Prod.fst).Nodup ∨ RefusedAnyway P.config W := by
  constructor
  · intro hloss W hW
    have hresult := result_of_wrote hW
    by_cases hr : rejectedDocument P.config W.decoded = true
    · rcases rejectedDocument_decoded.mp hr with hnil | hrefused
      · exact Or.inl (by simp [hnil])
      · exact Or.inr hrefused
    · rw [if_neg hr] at hresult
      obtain ⟨W', hW', hkeeps⟩ := hloss W.decoded hresult
      rw [hW.unique hW']
      exact Or.inl hkeeps.distinct
  · intro hcondition document hresult
    obtain ⟨W, hW⟩ := wrote_of_result hresult
    rw [result_of_wrote hW] at hresult
    split_ifs at hresult with hr
    have hpasses := Bool.eq_false_iff.mpr hr
    rw [← Except.ok.inj hresult]
    refine ⟨W, hW, keepsEveryRecord_of_nodup ?_ hpasses⟩
    rcases hcondition W hW with hn | hrefused
    · exact hn
    · exact absurd (rejectedDocument_decoded.mpr (Or.inr hrefused)) hr

/-- `{"version":1,"secrets":{"a":"","a":"x"}}` after its first byte -/
def repeatedNameText : List UInt8 :=
  bytes "\"version\":1,\"secrets\":\x7b\"a\":\"\",\"a\":\"x\"\x7d\x7d"

def repeatedNameJson : Json :=
  .object [("version", .number (.unsigned 1)),
    ("secrets", .object [("a", .string ""), ("a", .string "x")])]

def repeatedNameDocument : WrittenDocument := ⟨1, [("a", ""), ("a", "x")]⟩

def repeatedNameAnswers : Oracle Access.Answer
  | .openNoFollow _ => some ⟨some ⟨true, 1⟩, [.data 0 []]⟩
  | .var _ => some (bytes "passphrase")
  | .newDecryptor _ => true
  | .decrypt _ _ => some [.data 0x7B repeatedNameText]
  | .fromSlice _ => some repeatedNameJson

theorem wrote_repeatedName :
    Wrote singleReference (fun _ => repeatedNameAnswers) 0 repeatedNameDocument := by
  have hfile : (readBounded [.data 0 []] 1024).1 = .ok [0] :=
    readBounded_of_fits (by decide) rfl (by decide) (by decide)
  have hplain : (readPlaintext [.data 0x7B repeatedNameText] 1024).1 =
      .ok (0x7B :: repeatedNameText) := by
    have hlen : (content [.data 0x7B repeatedNameText]).length ≤ 1024 := by decide
    rw [readPlaintext_of_fits (by decide) rfl hlen]
    simp [content]
  refine ⟨0x7B :: repeatedNameText, repeatedNameJson, ?_, rfl⟩
  rw [load_eq]
  simp [decryptAndDecode, ciphertextOf, singleReference,
    repeatedNameAnswers, hfile, hplain, Except.toOption]

/-- The load returns the second entry of the repeated name; the first, which has an
empty value, is gone. -/
theorem repeatedName_loses_record :
    ¬ NoRecordLoss singleReference (fun _ => repeatedNameAnswers) 0 := by
  intro hloss
  have hW := wrote_repeatedName
  have hresult := result_of_wrote hW
  rw [if_neg (by decide)] at hresult
  obtain ⟨W, hW', hkeeps⟩ := hloss repeatedNameDocument.decoded hresult
  have hdistinct := hkeeps.distinct
  rw [← hW.unique hW'] at hdistinct
  exact absurd hdistinct (by decide)

end LensoSecrets.EncryptedFileProvider
