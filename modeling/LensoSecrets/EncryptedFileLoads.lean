import LensoSecrets.EncryptedFileProvider

/-!
# What a load of the encrypted document does

A load is five queries with a check after each. A plaintext reaches the JSON decoder
only after the handle and the decrypting reader have both been read to their ends
within the limits, and the document returned is the one decoded from it.
-/
namespace LensoSecrets.EncryptedFileProvider
open ByteReaders EarlyExit FileDocuments OrderedMaps QueryPrograms StandardLibrary

/-- The ciphertext of an open handle: its metadata passes and it is read in bounds. -/
def ciphertextOf (config : EncryptedFileConfig) (file : File) : Option (List UInt8) :=
  file.metadata.bind fun metadata =>
    if !metadata.isFile || (metadata.len == 0 || metadata.len > config.maxFileBytes) then none
    else (readBounded file.reader config.maxFileBytes).1.toOption

theorem ciphertextOf_eq_some {config : EncryptedFileConfig} {file : File}
    {ciphertext : List UInt8} (h : ciphertextOf config file = some ciphertext) :
    ∃ metadata, file.metadata = some metadata ∧
      (readBounded file.reader config.maxFileBytes).1 = .ok ciphertext := by
  obtain ⟨metadata, hm, hread⟩ := Option.bind_eq_some_iff.mp h
  refine ⟨metadata, hm, ?_⟩
  split_ifs at hread
  cases hb : (readBounded file.reader config.maxFileBytes).1 with
  | error e => simp [hb, Except.toOption] at hread
  | ok bytes => simpa [hb, Except.toOption] using hread

/-- The document a parsed plaintext stands for, if it passes the checks. -/
def documentOf (config : EncryptedFileConfig) (parsed : Option Json) : Except Unit FileDocument :=
  match parsed.bind deserialize with
  | none => .error ()
  | some document => if rejectedDocument config document then .error () else .ok document

/-- `load_document_from_file` after the handle has been read. -/
def decryptAndDecode (config : EncryptedFileConfig) (ciphertext : List UInt8) :
    Program Access Access.Answer (Except Unit FileDocument) :=
  .ask (.var config.keyEnvironmentVariable) fun key => match key.bind fromUtf8 with
  | none => .done (.error ())
  | some passphrase => .ask (.newDecryptor ciphertext) fun accepted => match accepted with
    | false => .done (.error ())
    | true => .ask (.decrypt ciphertext passphrase) fun stream =>
      match stream.bind fun s => (readPlaintext s config.maxPlaintextBytes).1.toOption with
      | none => .done (.error ())
      | some plaintext => .ask (.fromSlice plaintext) fun parsed =>
        .done (documentOf config parsed)

/-- The rest of `load_document_from_file`, check by check. -/
private theorem decryptAndDecode_eq (config : EncryptedFileConfig) (ciphertext : List UInt8) :
    (do
      let passphrase ← environmentKeySource.read config.keyEnvironmentVariable
      let accepted ← newDecryptor ciphertext
      Fallible.ofExcept (rejectIf (!accepted) ())
      let reader ← Fallible.okOr () (← decrypt ciphertext passphrase)
      let plaintext ← Fallible.ofExcept (readPlaintext reader config.maxPlaintextBytes).1
      let document ← Fallible.okOr () ((← fromSlice plaintext).bind deserialize)
      Fallible.ofExcept (rejectIf (rejectedDocument config document) ())
      pure document : Loading Unit FileDocument).run = decryptAndDecode config ciphertext := by
  simp only [environmentKeySource, varOs, newDecryptor, decrypt, fromSlice, bind_assoc,
    Fallible.okOr_bind, Fallible.ofExcept_bind, Fallible.run_query_bind]
  refine congrArg (Program.ask _) (funext fun key => ?_)
  cases key.bind fromUtf8 with
  | none => rfl
  | some passphrase =>
    refine congrArg (Program.ask _) (funext fun accepted => ?_)
    cases accepted with
    | false => rfl
    | true =>
      refine congrArg (Program.ask _) (funext fun stream => ?_)
      cases stream with
      | none => rfl
      | some stream =>
        simp only [Option.bind_some]
        cases (readPlaintext stream config.maxPlaintextBytes).1 with
        | error e => rfl
        | ok plaintext =>
          refine congrArg (Program.ask _) (funext fun parsed => ?_)
          simp only [documentOf]
          cases parsed.bind deserialize with
          | none => rfl
          | some document =>
            dsimp only
            cases rejectedDocument config document <;> rfl

theorem loadDocumentFromFile_eq (config : EncryptedFileConfig) (file : File) :
    (loadDocumentFromFile config environmentKeySource file).run =
      match ciphertextOf config file with
      | none => .done (.error ())
      | some ciphertext => decryptAndDecode config ciphertext := by
  simp only [loadDocumentFromFile, Fallible.okOr_bind, Fallible.ofExcept_bind]
  cases hm : file.metadata with
  | none => simp only [ciphertextOf, hm, Option.bind_none]
  | some metadata =>
    simp only [ciphertextOf, hm, Option.bind_some]
    cases metadata.isFile with
    | false => rfl
    | true =>
      cases (metadata.len == 0 || decide (metadata.len > config.maxFileBytes)) with
      | true => rfl
      | false =>
        cases (readBounded file.reader config.maxFileBytes).1 with
        | error e => rfl
        | ok ciphertext => exact decryptAndDecode_eq config ciphertext

theorem load_eq (P : AcceptedPlugin) : P.load.run = match P.family with
    | .other => .done (.error ())
    | .unix => .ask (.openNoFollow P.config.path) fun file =>
      match file.bind (ciphertextOf P.config) with
      | none => .done (.error ())
      | some ciphertext => decryptAndDecode P.config ciphertext := by
  rw [EncryptedFileSecretsPlugin.load, loadDocument]
  cases P.family with
  | other => rfl
  | unix =>
    simp only [openEncryptedFile, openNoFollow, bind_assoc, Fallible.run_query_bind,
      Fallible.okOr_bind]
    refine congrArg (Program.ask _) (funext fun file => ?_)
    cases file with
    | none => rfl
    | some file => exact loadDocumentFromFile_eq P.config file

/-- A reader was read to its end without an error and gave exactly these bytes. -/
structure ReadWhole (reader rest : Reader) (bytes : List UInt8) : Prop where
  clean : clean reader = true
  content : content reader = bytes
  atEnd : rest = []

theorem checkedAdd_one {bound : ℕ} (hb : bound + 1 < 2 ^ 64) :
    checkedAdd bound 1 = some (bound + 1) := if_pos hb

theorem cast_add_one {bound : ℕ} (hb : bound + 1 < 2 ^ 64) :
    (bound % 2 ^ 64 + 1) % 2 ^ 64 = bound + 1 := by omega

theorem readBounded_ok {reader : Reader} {bound : ℕ} {bytes : List UInt8}
    (hb : bound + 1 < 2 ^ 64) (h : (readBounded reader bound).1 = .ok bytes) :
    ReadWhole reader (readBounded reader bound).2 bytes ∧
      1 ≤ bytes.length ∧ bytes.length ≤ bound := by
  simp only [readBounded, checkedAdd_one hb] at h ⊢
  split_ifs at h with hf hlen
  rw [if_neg hf, if_neg hlen]
  simp only [Bool.or_eq_true, not_or, decide_eq_true_iff, not_lt] at hlen
  obtain ⟨hne, hle⟩ := hlen
  obtain ⟨hc, hfit⟩ := (takeReadToEnd_succ_fits bound reader).mp ⟨by simpa using hf, hle⟩
  obtain ⟨hbytes, hrest⟩ := takeReadToEnd_succ_eq hc hfit
  rw [← Except.ok.inj h]
  refine ⟨⟨hc, hbytes.symm, hrest⟩, ?_, hle⟩
  rw [List.isEmpty_iff] at hne
  exact List.length_pos_of_ne_nil hne

theorem readPlaintext_ok {reader : Reader} {bound : ℕ} {bytes : List UInt8}
    (hb : bound + 1 < 2 ^ 64) (h : (readPlaintext reader bound).1 = .ok bytes) :
    ReadWhole reader (readPlaintext reader bound).2 bytes ∧ bytes.length ≤ bound := by
  simp only [readPlaintext, cast_add_one hb] at h ⊢
  split_ifs at h with hf hlen
  rw [if_neg hf, if_neg hlen]
  have hle := not_lt.mp hlen
  obtain ⟨hc, hfit⟩ := (takeReadToEnd_succ_fits bound reader).mp ⟨by simpa using hf, hle⟩
  obtain ⟨hbytes, hrest⟩ := takeReadToEnd_succ_eq hc hfit
  rw [← Except.ok.inj h]
  exact ⟨⟨hc, hbytes.symm, hrest⟩, hle⟩

/-- A nonempty stream that fits is read. -/
theorem readBounded_of_fits {reader : Reader} {bound : ℕ} (hb : bound + 1 < 2 ^ 64)
    (hc : clean reader = true) (hpos : 1 ≤ (content reader).length)
    (hfit : (content reader).length ≤ bound) :
    (readBounded reader bound).1 = .ok (content reader) := by
  obtain ⟨hf, hlen⟩ := (takeReadToEnd_succ_fits bound reader).mpr ⟨hc, hfit⟩
  obtain ⟨hbytes, -⟩ := takeReadToEnd_succ_eq hc hfit
  have hne : (content reader).isEmpty = false := by
    rw [List.isEmpty_eq_false_iff]
    exact List.ne_nil_of_length_pos hpos
  simp only [readBounded, checkedAdd_one hb, hf, hbytes, hne, Bool.false_eq_true, if_false,
    Bool.false_or, decide_eq_true_iff, not_lt.mpr hfit]

theorem readPlaintext_of_fits {reader : Reader} {bound : ℕ} (hb : bound + 1 < 2 ^ 64)
    (hc : clean reader = true) (hfit : (content reader).length ≤ bound) :
    (readPlaintext reader bound).1 = .ok (content reader) := by
  obtain ⟨hf, hlen⟩ := (takeReadToEnd_succ_fits bound reader).mpr ⟨hc, hfit⟩
  obtain ⟨hbytes, -⟩ := takeReadToEnd_succ_eq hc hfit
  simp only [readPlaintext, cast_add_one hb, hf, hbytes, Bool.false_eq_true, if_false,
    not_lt.mpr hfit]

/-- Bounded reading takes at most one byte more than the bound from the handle. -/
theorem readBounded_consumes {bound : ℕ} (hb : bound + 1 < 2 ^ 64) (reader : Reader) :
    total reader ≤ total (readBounded reader bound).2 + (bound + 1) := by
  have hlen : (takeReadToEnd (bound + 1) reader).bytes.length ≤ bound + 1 := by
    rw [takeReadToEnd_bytes]
    exact List.length_take_le _ _
  have htotal := takeReadToEnd_total (bound + 1) reader
  simp only [readBounded, checkedAdd_one hb]
  split_ifs <;> dsimp only <;> omega

theorem readPlaintext_consumes {bound : ℕ} (hb : bound + 1 < 2 ^ 64) (reader : Reader) :
    total reader ≤ total (readPlaintext reader bound).2 + (bound + 1) := by
  have hlen : (takeReadToEnd (bound + 1) reader).bytes.length ≤ bound + 1 := by
    rw [takeReadToEnd_bytes]
    exact List.length_take_le _ _
  have htotal := takeReadToEnd_total (bound + 1) reader
  simp only [readPlaintext, cast_add_one hb]
  split_ifs <;> dsimp only <;> omega

/-- A load stops with an error before the JSON decoder, or it makes all five queries
and returns what the parsed plaintext stands for. -/
inductive LoadView (config : EncryptedFileConfig) :
    Except Unit FileDocument → Transcript Access.Answer → Prop
  | stopped {tr : Transcript Access.Answer}
      (hnone : ∀ plaintext parsed, ⟨.fromSlice plaintext, parsed⟩ ∉ tr) :
      LoadView config (.error ()) tr
  | decoded {file : File} {key : Option OsString} {ciphertext plaintext : List UInt8}
      {passphrase : String} {stream : Reader} (parsed : Option Json)
      (hc : ciphertextOf config file = some ciphertext) (hk : key.bind fromUtf8 = some passphrase)
      (hp : (readPlaintext stream config.maxPlaintextBytes).1 = .ok plaintext) :
      LoadView config (documentOf config parsed)
        [⟨.openNoFollow config.path, some file⟩, ⟨.var config.keyEnvironmentVariable, key⟩,
          ⟨.newDecryptor ciphertext, true⟩, ⟨.decrypt ciphertext passphrase, some stream⟩,
          ⟨.fromSlice plaintext, parsed⟩]

variable (P : AcceptedPlugin) (h : History Access.Answer) (t : ℕ)

theorem loadView : LoadView P.config (Program.result h t P.load.run)
    (Program.transcript h t P.load.run) := by
  rw [load_eq]
  cases P.family with
  | other => exact .stopped (by simp)
  | unix =>
    simp only [Program.result_ask, Program.transcript_ask]
    cases ho : h t (.openNoFollow P.config.path) with
    | none => exact .stopped (by simp)
    | some file =>
      simp only [Option.bind_some]
      cases hc : ciphertextOf P.config file with
      | none => exact .stopped (by simp)
      | some ciphertext =>
        simp only [decryptAndDecode, Program.result_ask, Program.transcript_ask]
        cases hk : (h (t + 1) (.var P.config.keyEnvironmentVariable)).bind fromUtf8 with
        | none => exact .stopped (by simp)
        | some passphrase =>
          simp only [Program.result_ask, Program.transcript_ask]
          cases h (t + 1 + 1) (.newDecryptor ciphertext) with
          | false => exact .stopped (by simp)
          | true =>
            simp only [Program.result_ask, Program.transcript_ask]
            cases h (t + 1 + 1 + 1) (.decrypt ciphertext passphrase) with
            | none => exact .stopped (by simp)
            | some stream =>
              simp only [Option.bind_some]
              cases hp : (readPlaintext stream P.config.maxPlaintextBytes).1 with
              | error e => exact .stopped (by simp [Except.toOption])
              | ok plaintext => exact .decoded _ hc hk hp

/-- The one plaintext a complete load hands to the JSON decoder. -/
theorem mem_fromSlice {config : EncryptedFileConfig} {file : File} {key : Option OsString}
    {ciphertext plaintext plaintext' : List UInt8} {passphrase : String} {stream : Reader}
    {parsed parsed' : Option Json} :
    (⟨.fromSlice plaintext', parsed'⟩ : Σ q : Access, q.Answer) ∈
        ([⟨.openNoFollow config.path, some file⟩, ⟨.var config.keyEnvironmentVariable, key⟩,
          ⟨.newDecryptor ciphertext, true⟩, ⟨.decrypt ciphertext passphrase, some stream⟩,
          ⟨.fromSlice plaintext, parsed⟩] : Transcript Access.Answer) ↔
      plaintext' = plaintext ∧ parsed' = parsed := by
  simp only [List.mem_cons, Sigma.mk.injEq, reduceCtorEq, false_and, Access.fromSlice.injEq,
    List.not_mem_nil, or_false, false_or]
  constructor
  · intro h
    exact ⟨h.1, eq_of_heq h.2⟩
  · intro h
    exact ⟨h.1, heq_of_eq h.2⟩

/-- A plaintext reaches the JSON decoder only if the handle reported its end after 1 to
`max_file_bytes` bytes, all given to the decryptor, and the decrypting reader reported
its end after at most `max_plaintext_bytes` bytes, all given to the decoder. -/
theorem parses_only_whole_containers :
    (∀ plaintext parsed,
      ⟨.fromSlice plaintext, parsed⟩ ∈ Program.transcript h t P.load.run →
      ∃ file ciphertext passphrase stream,
        ⟨.openNoFollow P.config.path, some file⟩ ∈ Program.transcript h t P.load.run ∧
        ⟨.newDecryptor ciphertext, true⟩ ∈ Program.transcript h t P.load.run ∧
        ⟨.decrypt ciphertext passphrase, some stream⟩ ∈ Program.transcript h t P.load.run ∧
        ReadWhole file.reader (readBounded file.reader P.config.maxFileBytes).2 ciphertext ∧
        1 ≤ ciphertext.length ∧ ciphertext.length ≤ P.config.maxFileBytes ∧
        ReadWhole stream (readPlaintext stream P.config.maxPlaintextBytes).2 plaintext ∧
        plaintext.length ≤ P.config.maxPlaintextBytes) ∧
    ((∀ plaintext parsed,
      ⟨.fromSlice plaintext, parsed⟩ ∉ Program.transcript h t P.load.run) →
      Program.result h t P.load.run = .error ()) ∧
    (∀ reader, total reader ≤
      total (readBounded reader P.config.maxFileBytes).2 + (P.config.maxFileBytes + 1)) ∧
    (∀ reader, total reader ≤
      total (readPlaintext reader P.config.maxPlaintextBytes).2 +
        (P.config.maxPlaintextBytes + 1)) ∧
    checkedAdd P.config.maxFileBytes 1 = some (P.config.maxFileBytes + 1) ∧
    (P.config.maxPlaintextBytes % 2 ^ 64 + 1) % 2 ^ 64 = P.config.maxPlaintextBytes + 1 := by
  obtain ⟨-, hf, -, hp, -, -⟩ := P.limits
  have hfile : P.config.maxFileBytes + 1 < 2 ^ 64 := by omega
  have hplain : P.config.maxPlaintextBytes + 1 < 2 ^ 64 := by omega
  refine ⟨?_, ?_, readBounded_consumes hfile, readPlaintext_consumes hplain,
    checkedAdd_one hfile, cast_add_one hplain⟩
  · intro plaintext parsed hmem
    have hview := loadView P h t
    generalize Program.result h t P.load.run = result at hview
    generalize Program.transcript h t P.load.run = tr at hview hmem ⊢
    cases hview with
    | stopped hnone => exact absurd hmem (hnone plaintext parsed)
    | @decoded file key ciphertext plaintext' passphrase stream parsed' hc hk hread =>
      obtain ⟨rfl, rfl⟩ := mem_fromSlice.mp hmem
      refine ⟨file, ciphertext, passphrase, stream, by simp, by simp, by simp, ?_⟩
      obtain ⟨metadata, hmeta, hbounded⟩ := ciphertextOf_eq_some hc
      obtain ⟨hwhole, hpos, hle⟩ := readBounded_ok hfile hbounded
      exact ⟨hwhole, hpos, hle, readPlaintext_ok hplain hread⟩
  · intro hnone
    have hview := loadView P h t
    generalize Program.result h t P.load.run = result at hview
    generalize Program.transcript h t P.load.run = tr at hview hnone
    cases hview with
    | stopped => rfl
    | @decoded file key ciphertext plaintext passphrase stream parsed =>
      exact absurd (mem_fromSlice.mpr ⟨rfl, rfl⟩) (hnone plaintext parsed)

/-- The path is opened as a regular file of the length allowed, whose bytes are a container. -/
def Holds (config : EncryptedFileConfig) (answers : History Access.Answer) (t : ℕ)
    (container : List UInt8) : Prop :=
  ∃ file metadata, answers t (.openNoFollow config.path) = some file ∧
    file.metadata = some metadata ∧ metadata.isFile = true ∧
    1 ≤ metadata.len ∧ metadata.len ≤ config.maxFileBytes ∧
    clean file.reader = true ∧ content file.reader = container ∧
    1 ≤ container.length ∧ container.length ≤ config.maxFileBytes

theorem ciphertextOf_iff {config : EncryptedFileConfig} (hb : config.maxFileBytes + 1 < 2 ^ 64)
    {file : File} {ciphertext : List UInt8} :
    ciphertextOf config file = some ciphertext ↔ ∃ metadata, file.metadata = some metadata ∧
      metadata.isFile = true ∧ 1 ≤ metadata.len ∧ metadata.len ≤ config.maxFileBytes ∧
      clean file.reader = true ∧ content file.reader = ciphertext ∧
      1 ≤ ciphertext.length ∧ ciphertext.length ≤ config.maxFileBytes := by
  constructor
  · intro h
    obtain ⟨metadata, hmetadata, hread⟩ := ciphertextOf_eq_some h
    obtain ⟨hwhole, hpos, hfit⟩ := readBounded_ok hb hread
    rw [ciphertextOf, hmetadata, Option.bind_some] at h
    split_ifs at h with hrefused
    simp only [Bool.or_eq_true, Bool.not_eq_true', beq_iff_eq, decide_eq_true_iff, not_or,
      Bool.not_eq_false, not_lt] at hrefused
    obtain ⟨hfile, hlen, hle⟩ := hrefused
    exact ⟨metadata, hmetadata, hfile, by omega, hle, hwhole.clean, hwhole.content, hpos, hfit⟩
  · intro h
    obtain ⟨metadata, hmetadata, hfile, hlen, hle, hclean, rfl, hpos, hfit⟩ := h
    have hzero : metadata.len ≠ 0 := by omega
    rw [ciphertextOf, hmetadata, Option.bind_some, readBounded_of_fits hb hclean hpos hfit]
    simp [hfile, hzero, hle, Except.toOption]

/-- What the questions after the container has been read were answered. -/
theorem decryptAndDecode_eq_ok {config : EncryptedFileConfig} {h : History Access.Answer} {t : ℕ}
    {ciphertext : List UInt8} {document : FileDocument} :
    Program.result h t (decryptAndDecode config ciphertext) = .ok document ↔
      ∃ passphrase stream plaintext,
        (h t (.var config.keyEnvironmentVariable)).bind fromUtf8 = some passphrase ∧
        h (t + 1) (.newDecryptor ciphertext) = true ∧
        h (t + 2) (.decrypt ciphertext passphrase) = some stream ∧
        (readPlaintext stream config.maxPlaintextBytes).1 = .ok plaintext ∧
        documentOf config (h (t + 3) (.fromSlice plaintext)) = .ok document := by
  rw [decryptAndDecode, Program.result_ask]
  constructor
  · intro hload
    cases hkey : (h t (.var config.keyEnvironmentVariable)).bind fromUtf8 with
    | none =>
      rw [hkey] at hload
      cases hload
    | some passphrase =>
      simp only [hkey, Program.result_ask] at hload
      cases hheader : h (t + 1) (.newDecryptor ciphertext) with
      | false =>
        rw [hheader] at hload
        cases hload
      | true =>
        simp only [hheader, Program.result_ask] at hload
        cases hstream : h (t + 1 + 1) (.decrypt ciphertext passphrase) with
        | none =>
          rw [hstream] at hload
          cases hload
        | some stream =>
          rw [hstream, Option.bind_some] at hload
          cases hread : (readPlaintext stream config.maxPlaintextBytes).1 with
          | error e =>
            rw [hread] at hload
            cases hload
          | ok plaintext =>
            rw [hread] at hload
            exact ⟨passphrase, stream, plaintext, rfl, rfl, hstream, hread, hload⟩
  · intro hload
    obtain ⟨passphrase, stream, plaintext, hkey, hheader, hstream, hread, hdocument⟩ := hload
    have hstream : h (t + 1 + 1) (.decrypt ciphertext passphrase) = some stream := hstream
    simp only [hkey, Program.result_ask, hheader, hstream, Option.bind_some, hread,
      Except.toOption]
    exact hdocument

/-- A load that succeeds has asked five times. -/
theorem load_eq_ok {document : FileDocument} :
    Program.result h t P.load.run = .ok document ↔ P.family = .unix ∧
      ∃ file ciphertext, h t (.openNoFollow P.config.path) = some file ∧
        ciphertextOf P.config file = some ciphertext ∧
        Program.result h (t + 1) (decryptAndDecode P.config ciphertext) = .ok document := by
  rw [load_eq]
  cases P.family with
  | other =>
    constructor
    · intro hload
      cases hload
    · intro hload
      cases hload.1
  | unix =>
    rw [Program.result_ask]
    constructor
    · intro hload
      refine ⟨rfl, ?_⟩
      cases hfile : h t (.openNoFollow P.config.path) with
      | none =>
        rw [hfile] at hload
        cases hload
      | some file =>
        rw [hfile, Option.bind_some] at hload
        cases hciphertext : ciphertextOf P.config file with
        | none =>
          rw [hciphertext] at hload
          cases hload
        | some ciphertext =>
          rw [hciphertext] at hload
          exact ⟨file, ciphertext, rfl, hciphertext, hload⟩
    · intro hload
      obtain ⟨-, file, ciphertext, hfile, hciphertext, hdocument⟩ := hload
      rw [hfile, Option.bind_some, hciphertext]
      exact hdocument

/-- What the checks ask of a document. -/
structure Acceptable (config : EncryptedFileConfig) (document : FileDocument) : Prop where
  version : document.version = 1
  records : document.secrets.isEmpty = false
  few : document.secrets.len ≤ config.maxRecords
  named : ∀ entry ∈ document.secrets.entries, validSourceName entry.1 = true
  filled : ∀ entry ∈ document.secrets.entries, entry.2 ≠ ""

theorem rejectedDocument_eq_false {config : EncryptedFileConfig} {document : FileDocument} :
    rejectedDocument config document = false ↔ Acceptable config document := by
  simp only [rejectedDocument, Bool.or_eq_false_iff, bne_eq_false_iff_eq,
    decide_eq_false_iff_not, gt_iff_lt, not_lt, List.any_eq_false, Bool.or_eq_true,
    Bool.not_eq_true', not_or, Bool.not_eq_false]
  constructor
  · intro h
    obtain ⟨⟨⟨hversion, hrecords⟩, hfew⟩, hentries⟩ := h
    refine ⟨hversion, hrecords, hfew, ?_, ?_⟩
    · intro entry hentry
      exact (hentries entry hentry).1
    · intro entry hentry
      simpa using (hentries entry hentry).2
  · intro h
    refine ⟨⟨⟨h.version, h.records⟩, h.few⟩, ?_⟩
    intro entry hentry
    exact ⟨h.named entry hentry, by simpa using h.filled entry hentry⟩

theorem documentOf_eq_ok {config : EncryptedFileConfig} {parsed : Option Json}
    {document : FileDocument} : documentOf config parsed = .ok document ↔
      ∃ json, parsed = some json ∧ deserialize json = some document ∧
        Acceptable config document := by
  simp only [← rejectedDocument_eq_false, documentOf]
  constructor
  · intro h
    cases hdecoded : parsed.bind deserialize with
    | none =>
      rw [hdecoded] at h
      cases h
    | some decoded =>
      rw [hdecoded] at h
      obtain ⟨json, rfl, hjson⟩ := Option.bind_eq_some_iff.mp hdecoded
      cases hrejected : rejectedDocument config decoded with
      | true => simp [hrejected] at h
      | false =>
        simp only [hrejected, Bool.false_eq_true, if_false] at h
        cases h
        exact ⟨json, rfl, hjson, hrejected⟩
  · intro h
    obtain ⟨json, rfl, hdecoded, hrejected⟩ := h
    simp [hdecoded, hrejected]

/-- A container, what it is opened with and read through, and what its plaintext parses to. -/
structure Opening where
  container : List UInt8
  passphrase : String
  stream : Reader
  json : Json

/-- A load that begins at this moment finds all of these. -/
structure Opening.Found (opening : Opening) : Prop where
  unix : P.family = .unix
  held : Holds P.config h t opening.container
  unlocked : (h (t + 1) (.var P.config.keyEnvironmentVariable)).bind fromUtf8 =
    some opening.passphrase
  header : h (t + 2) (.newDecryptor opening.container) = true
  decrypted : h (t + 3) (.decrypt opening.container opening.passphrase) = some opening.stream
  ends : clean opening.stream = true
  fits : (content opening.stream).length ≤ P.config.maxPlaintextBytes
  parsed : h (t + 4) (.fromSlice (content opening.stream)) = some opening.json

/-- The path holds this document for a load that begins now. -/
def DocumentHeld (document : FileDocument) : Prop :=
  ∃ opening : Opening, opening.Found P h t ∧ deserialize opening.json = some document ∧
    Acceptable P.config document

/-- The document the path holds for such a load has this record. -/
def RecordHeld (source value : String) : Prop :=
  ∃ document, DocumentHeld P h t document ∧ document.secrets.get? source = some value

/-- A load returns a document exactly if the path holds it. -/
theorem load_iff_documentHeld {document : FileDocument} :
    Program.result h t P.load.run = .ok document ↔ DocumentHeld P h t document := by
  obtain ⟨-, hfile, -, hplain, -, -⟩ := P.limits
  have hfile : P.config.maxFileBytes + 1 < 2 ^ 64 := by omega
  have hplain : P.config.maxPlaintextBytes + 1 < 2 ^ 64 := by omega
  rw [load_eq_ok]
  simp only [decryptAndDecode_eq_ok, documentOf_eq_ok]
  constructor
  · intro hload
    obtain ⟨hunix, file, ciphertext, hopen, hciphertext, passphrase, stream, plaintext, hkey,
      hheader, hstream, hread, json, hparsed, hdecoded, hacceptable⟩ := hload
    obtain ⟨metadata, hheld⟩ := (ciphertextOf_iff hfile).mp hciphertext
    obtain ⟨hwhole, hfit⟩ := readPlaintext_ok hplain hread
    obtain rfl := hwhole.content
    exact ⟨⟨ciphertext, passphrase, stream, json⟩, ⟨hunix, ⟨file, metadata, hopen, hheld⟩, hkey,
      hheader, hstream, hwhole.clean, hfit, hparsed⟩, hdecoded, hacceptable⟩
  · intro hheld
    obtain ⟨opening, hfound, hdecoded, hacceptable⟩ := hheld
    obtain ⟨file, metadata, hopen, hcontainer⟩ := hfound.held
    exact ⟨hfound.unix, file, opening.container, hopen,
      (ciphertextOf_iff hfile).mpr ⟨metadata, hcontainer⟩, opening.passphrase, opening.stream,
      content opening.stream, hfound.unlocked, hfound.header, hfound.decrypted,
      readPlaintext_of_fits hplain hfound.ends hfound.fits, opening.json, hfound.parsed, hdecoded,
      hacceptable⟩

theorem recordHeld_iff {source value : String} :
    RecordHeld P h t source value ↔ recordValue P h t source = some value := by
  simp only [RecordHeld, recordValue_eq_some, load_iff_documentHeld]

end LensoSecrets.EncryptedFileProvider
