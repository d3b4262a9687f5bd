import LensoSecrets.EncryptedFileLoads
import Mathlib.Data.Set.Basic
import Mathlib.Order.Monotone.Basic

/-!
# Rotation of the encrypted document

The document and its passphrase may be replaced at any moment, one before the other. What
age promises is that a container opens with its own passphrase and with no other, and that
a decrypted stream which ends well is what was sealed. Every load then returns one sealed
document, the one the path held when it was opened, or nothing; and a document that was
replaced is never seen again.
-/
namespace LensoSecrets.EncryptedFileProvider
open ByteReaders CapabilityContract EarlyExit FileDocuments OrderedMaps QueryPrograms
  StandardLibrary

/-- A container with what it opens with and what is in it. -/
structure Seal where
  container : List UInt8
  passphrase : String
  plaintext : List UInt8
  json : Option Json

/-- A history in which the containers of `seals` are sealed. What the path and the variable
hold is arbitrary, and so is every other container. -/
structure SealedHistory (seals : Set Seal) where
  answers : History Access.Answer
  header : ∀ t, ∀ s ∈ seals, answers t (.newDecryptor s.container) = true
  opens : ∀ t, ∀ s ∈ seals, ∃ stream,
    answers t (.decrypt s.container s.passphrase) = some stream ∧ clean stream = true ∧
      content stream = s.plaintext
  authentic : ∀ t container passphrase stream,
    answers t (.decrypt container passphrase) = some stream → clean stream = true →
      ∃ s ∈ seals, s.container = container ∧ s.passphrase = passphrase ∧
        s.plaintext = content stream
  parses : ∀ t, ∀ s ∈ seals, answers t (.fromSlice s.plaintext) = s.json

/-- A reader of these bytes. -/
def readerOf : List UInt8 → Reader
  | [] => []
  | b :: bs => [.data b bs]

theorem readerOf_spec (bytes : List UInt8) :
    clean (readerOf bytes) = true ∧ content (readerOf bytes) = bytes := by
  cases bytes with
  | nil => exact ⟨rfl, rfl⟩
  | cons b bs => exact ⟨rfl, List.append_nil _⟩

/-- Containers that are all different are sealed in some history, whatever the path and the
variables hold. -/
def sealedHistory (list : List Seal) {seals : Set Seal} (listed : ∀ s, s ∈ seals ↔ s ∈ list)
    (containers : ∀ s ∈ seals, ∀ s' ∈ seals, s.container = s'.container → s = s')
    (parse : List UInt8 → Option Json) (parses : ∀ s ∈ seals, parse s.plaintext = s.json)
    (files : ℕ → OsString → Option File) (environment : ℕ → String → Option OsString) :
    SealedHistory seals where
  answers t
    | .openNoFollow path => files t path
    | .var name => environment t name
    | .newDecryptor ciphertext => list.any fun s => s.container == ciphertext
    | .decrypt ciphertext passphrase =>
      (list.find? fun s => s.container == ciphertext && s.passphrase == passphrase).map
        fun s => readerOf s.plaintext
    | .fromSlice plaintext => parse plaintext
  header t s hs := List.any_eq_true.mpr ⟨s, (listed s).mp hs, by simp⟩
  opens t s hs := by
    refine ⟨readerOf s.plaintext, ?_, readerOf_spec s.plaintext⟩
    cases hfind : list.find? fun s' => s'.container == s.container &&
        s'.passphrase == s.passphrase with
    | none =>
      have hnone := List.find?_eq_none.mp hfind s ((listed s).mp hs)
      simp at hnone
    | some s' =>
      have hsame := List.find?_some hfind
      simp only [Bool.and_eq_true, beq_iff_eq] at hsame
      have hmem := (listed s').mpr (List.mem_of_find?_eq_some hfind)
      obtain rfl := containers s' hmem s hs hsame.1
      exact congrArg (Option.map fun s => readerOf s.plaintext) hfind
  authentic t container passphrase stream hstream _ := by
    obtain ⟨s, hfind, rfl⟩ := Option.map_eq_some_iff.mp hstream
    have hsame := List.find?_some hfind
    simp only [Bool.and_eq_true, beq_iff_eq] at hsame
    exact ⟨s, (listed s).mpr (List.mem_of_find?_eq_some hfind), hsame.1, hsame.2,
      (readerOf_spec s.plaintext).2.symm⟩
  parses t s hs := parses s hs

/-- The seal a load meets that begins at this moment: its container is opened first, and the
passphrase is read after it. -/
structure Current (P : AcceptedPlugin) {seals : Set Seal} (H : SealedHistory seals) (t : ℕ)
    (s : Seal) : Prop where
  mem : s ∈ seals
  unix : P.family = .unix
  held : Holds P.config H.answers t s.container
  unlocked : (H.answers (t + 1) (.var P.config.keyEnvironmentVariable)).bind fromUtf8 =
    some s.passphrase
  fits : s.plaintext.length ≤ P.config.maxPlaintextBytes

/-- What a load returns of a seal. -/
def Seal.document (s : Seal) (config : EncryptedFileConfig) : Except Unit FileDocument :=
  documentOf config s.json

/-- A value recorded in a seal for the source a reference is bound to. -/
def Recorded (config : EncryptedFileConfig) (s : Seal) (reference value : String) : Prop :=
  ∃ source document, config.references.get? reference = some source ∧
    s.document config = .ok document ∧ document.secrets.get? source = some value

variable (P : AcceptedPlugin)

variable {seals : Set Seal} (H : SealedHistory seals)

/-- A load returns a document exactly if it is the one of the seal the load meets. -/
theorem load_iff {t : ℕ} {document : FileDocument} :
    Program.result H.answers t P.load.run = .ok document ↔
      ∃ s, Current P H t s ∧ s.document P.config = .ok document := by
  simp only [load_iff_documentHeld, Seal.document, documentOf_eq_ok]
  constructor
  · intro h
    obtain ⟨opening, hfound, hdocument⟩ := h
    obtain ⟨s, hs, hcontainer, hpassphrase, hplaintext⟩ :=
      H.authentic _ _ _ _ hfound.decrypted hfound.ends
    have hparsed := hfound.parsed
    rw [← hplaintext, H.parses _ s hs] at hparsed
    refine ⟨s, ⟨hs, hfound.unix, ?_, ?_, ?_⟩, opening.json, hparsed, hdocument⟩
    · rw [hcontainer]
      exact hfound.held
    · rw [hpassphrase]
      exact hfound.unlocked
    · rw [hplaintext]
      exact hfound.fits
  · intro h
    obtain ⟨s, hcurrent, json, hjson, hdocument⟩ := h
    obtain ⟨stream, hstream, hclean, hcontent⟩ := H.opens (t + 3) s hcurrent.mem
    refine ⟨⟨s.container, s.passphrase, stream, json⟩, ⟨hcurrent.unix, hcurrent.held,
      hcurrent.unlocked, H.header _ s hcurrent.mem, hstream, hclean, ?_, ?_⟩, hdocument⟩
    · rw [hcontent]
      exact hcurrent.fits
    · rw [hcontent, H.parses _ s hcurrent.mem]
      exact hjson

theorem resolve_iff {t : ℕ} {reference value : String} :
    Program.result H.answers t (P.resolve ⟨reference⟩) = .ok (.ok ⟨value⟩) ↔
      ∃ s, Current P H t s ∧ Recorded P.config s reference value := by
  rw [result_resolve, ProviderContract.replyOf_eq_value, ResolutionTables.Table.answer_eq_value]
  simp only [recordValue_eq_some, load_iff]
  constructor
  · intro h
    obtain ⟨source, hsource, document, ⟨s, hcurrent, hdocument⟩, hvalue⟩ := h
    exact ⟨s, hcurrent, source, document, hsource, hdocument, hvalue⟩
  · intro h
    obtain ⟨s, hcurrent, source, document, hsource, hdocument, hvalue⟩ := h
    exact ⟨source, hsource, document, ⟨s, hcurrent, hdocument⟩, hvalue⟩

theorem prepare_iff {t : ℕ} : Program.result H.answers t P.prepare.run = .ok () ↔
    ∃ s document, Current P H t s ∧ s.document P.config = .ok document ∧
      ∀ reference source, P.config.references.get? reference = some source →
        ∃ value, document.secrets.get? source = some value := by
  rw [result_prepare]
  constructor
  · intro h
    cases hload : Program.result H.answers t P.load.run with
    | error e =>
      rw [hload] at h
      cases h
    | ok document =>
      rw [hload] at h
      obtain ⟨s, hcurrent, hdocument⟩ := (load_iff P H).mp hload
      exact ⟨s, document, hcurrent, hdocument, ResolutionTables.Table.verify_eq_ok.mp h⟩
  · intro h
    obtain ⟨s, document, hcurrent, hdocument, hvalues⟩ := h
    rw [(load_iff P H).mpr ⟨s, hcurrent, hdocument⟩]
    exact ResolutionTables.Table.verify_eq_ok.mpr hvalues

/-- Documents sealed one after another. At any moment the path may hold the one installed then,
something that is none of them, or nothing, but never another one of them. -/
structure Rotation (config : EncryptedFileConfig) where
  generation : ℕ → Seal
  history : SealedHistory (Set.range generation)
  installed : ℕ → ℕ
  monotone : Monotone installed
  held : ∀ t, ∀ s ∈ Set.range generation, Holds config history.answers t s.container →
    s = generation (installed t)

/-- A call with the moment it begins at and its reply. -/
structure Served where
  moment : ℕ
  reference : String
  reply : Reply

/-- Calls of `resolve` one after another, each after a pause. -/
def serve (h : History Access.Answer) : ℕ → List (ℕ × String) → List Served
  | _, [] => []
  | t, (pause, reference) :: requests =>
    ⟨t + pause, reference, Program.result h (t + pause) (P.resolve ⟨reference⟩)⟩ ::
      serve h (t + pause + (Program.transcript h (t + pause) (P.resolve ⟨reference⟩)).length)
        requests

theorem serve_spec (h : History Access.Answer) (t : ℕ) (requests : List (ℕ × String)) :
    (∀ call ∈ serve P h t requests, t ≤ call.moment ∧
      call.reply = Program.result h call.moment (P.resolve ⟨call.reference⟩)) ∧
    (serve P h t requests).Pairwise fun a b => a.moment ≤ b.moment := by
  induction requests generalizing t with
  | nil => simp [serve]
  | cons request requests ih =>
    obtain ⟨pause, reference⟩ := request
    obtain ⟨hreplies, hordered⟩ := ih
      (t + pause + (Program.transcript h (t + pause) (P.resolve ⟨reference⟩)).length)
    rw [serve]
    constructor
    · intro call hcall
      rcases List.mem_cons.mp hcall with rfl | hcall
      · exact ⟨Nat.le_add_right _ _, rfl⟩
      · obtain ⟨hle, hreply⟩ := hreplies call hcall
        exact ⟨by omega, hreply⟩
    · apply List.pairwise_cons.mpr
      refine ⟨?_, hordered⟩
      intro call hcall
      have hle := (hreplies call hcall).1
      dsimp only
      omega

def rotatedJson (value : String) : Json :=
  .object [("version", .number (.unsigned 1)), ("secrets", .object [("a", .string value)])]

/-- The second document has a passphrase of its own. -/
def rotatedSeal : ℕ → Seal
  | 0 => ⟨[0], "before", [0], some (rotatedJson "old")⟩
  | _ + 1 => ⟨[1], "after", [1], some (rotatedJson "new")⟩

theorem rotatedSeal_range (s : Seal) :
    s ∈ Set.range rotatedSeal ↔ s ∈ [rotatedSeal 0, rotatedSeal 1] := by
  simp only [List.mem_cons, List.not_mem_nil, or_false]
  constructor
  · intro h
    obtain ⟨n, rfl⟩ := h
    cases n with
    | zero => exact .inl rfl
    | succ n => exact .inr rfl
  · intro h
    rcases h with rfl | rfl
    · exact ⟨0, rfl⟩
    · exact ⟨1, rfl⟩

theorem rotatedSeal_container {s s' : Seal} (hs : s ∈ Set.range rotatedSeal)
    (hs' : s' ∈ Set.range rotatedSeal) (h : s.container = s'.container) : s = s' := by
  obtain ⟨n, rfl⟩ := hs
  obtain ⟨n', rfl⟩ := hs'
  cases n with
  | zero =>
    cases n' with
    | zero => rfl
    | succ n' => simp [rotatedSeal] at h
  | succ n =>
    cases n' with
    | zero => simp [rotatedSeal] at h
    | succ n' => rfl

/-- The path and the variable hold the second seal from the fifth moment on. -/
def twoSeals : Rotation singleReference.config where
  generation := rotatedSeal
  history := sealedHistory [rotatedSeal 0, rotatedSeal 1] rotatedSeal_range
    (fun _ hs _ hs' => rotatedSeal_container hs hs')
    (fun plaintext => some (rotatedJson (if plaintext = [0] then "old" else "new")))
    (by
      intro s hs
      obtain ⟨n, rfl⟩ := hs
      cases n with
      | zero => rfl
      | succ n => rfl)
    (fun t _ => some ⟨some ⟨true, 1⟩, readerOf (rotatedSeal (t / 5)).container⟩)
    (fun t _ => some (bytes (rotatedSeal (t / 5)).passphrase))
  installed t := t / 5
  monotone _ _ h := Nat.div_le_div_right h
  held t s hs h := by
    obtain ⟨file, _, hfile, -, -, -, -, -, hcontent, -⟩ := h
    obtain rfl := Option.some.inj hfile
    rw [(readerOf_spec _).2] at hcontent
    exact rotatedSeal_container hs ⟨_, rfl⟩ hcontent.symm

theorem current_twoSeals {t : ℕ}
    (h : (rotatedSeal ((t + 1) / 5)).passphrase = (rotatedSeal (t / 5)).passphrase) :
    Current singleReference twoSeals.history t (rotatedSeal (t / 5)) := by
  have hlength : (rotatedSeal (t / 5)).container.length = 1 := by
    cases t / 5 with
    | zero => rfl
    | succ n => rfl
  have hfits : (rotatedSeal (t / 5)).plaintext.length ≤ 1024 := by
    cases t / 5 with
    | zero => decide
    | succ n => simp [rotatedSeal]
  obtain ⟨hclean, hcontent⟩ := readerOf_spec (rotatedSeal (t / 5)).container
  refine ⟨⟨_, rfl⟩, rfl, ?_, ?_, hfits⟩
  · refine ⟨_, _, rfl, rfl, rfl, le_refl 1, by decide, hclean, hcontent, hlength.ge, ?_⟩
    rw [hlength]
    decide
  · rw [← h]
    exact fromUtf8_bytes _

theorem rotatedSeal_late {t : ℕ} (h : 5 ≤ t) : rotatedSeal (t / 5) = rotatedSeal 1 := by
  have hpos : t / 5 ≠ 0 := by omega
  obtain ⟨n, hn⟩ := Nat.exists_eq_succ_of_ne_zero hpos
  rw [hn]
  rfl

theorem recorded_old : Recorded singleReference.config (rotatedSeal 0) "db/password" "old" := by
  refine ⟨"a", ⟨1, OrderedMap.ofEntries [("a", "old")]⟩, by decide, ?_, by decide⟩
  decide

theorem recorded_new : Recorded singleReference.config (rotatedSeal 1) "db/password" "new" := by
  refine ⟨"a", ⟨1, OrderedMap.ofEntries [("a", "new")]⟩, by decide, ?_, by decide⟩
  decide

/-- Loads and calls, by the seal that is current when the call begins. -/
structure ObservesSeals (P : AcceptedPlugin) {seals : Set Seal} (H : SealedHistory seals) :
    Prop where
  load : ∀ t document, Program.result H.answers t P.load.run = .ok document ↔
    ∃ s, Current P H t s ∧ s.document P.config = .ok document
  resolve : ∀ t reference value,
    Program.result H.answers t (P.resolve ⟨reference⟩) = .ok (.ok ⟨value⟩) ↔
      ∃ s, Current P H t s ∧ Recorded P.config s reference value
  prepare : ∀ t, Program.result H.answers t P.prepare.run = .ok () ↔
    ∃ s document, Current P H t s ∧ s.document P.config = .ok document ∧
      ∀ reference source, P.config.references.get? reference = some source →
        ∃ value, document.secrets.get? source = some value

/-- A secret that is resolved was recorded, as it is, in the one document that the path held
when the call began and that the passphrase read after it opens; and one that is recorded
there is resolved. -/
theorem calls_observe_seals (P : AcceptedPlugin) {seals : Set Seal} (H : SealedHistory seals) :
    ObservesSeals P H := by
  constructor
  · intro t document
    exact load_iff P H
  · intro t reference value
    exact resolve_iff P H
  · intro t
    exact prepare_iff P H

theorem prepare_twoSeals :
    Program.result twoSeals.history.answers 0 singleReference.prepare.run = .ok () := by
  apply ((calls_observe_seals singleReference twoSeals.history).prepare 0).mpr
  refine ⟨_, ⟨1, OrderedMap.ofEntries [("a", "old")]⟩, current_twoSeals rfl, by decide, ?_⟩
  intro reference source h
  have hentry : (reference, source) ∈ [("db/password", "a")] := OrderedMap.get?_eq_some.mp h
  obtain ⟨rfl, rfl⟩ := Prod.mk.inj (List.mem_singleton.mp hentry)
  exact ⟨"old", by decide⟩

/-- In a rotation a call gives exactly what is recorded in the generation that is installed
when it begins, if the passphrase read after it is that generation's; and no later call sees
an earlier generation. -/
structure SeesRotation (P : AcceptedPlugin) (R : Rotation P.config) (calls : List Served) :
    Prop where
  resolved : ∀ call ∈ calls, ∀ value, call.reply = .ok (.ok ⟨value⟩) ↔
    Current P R.history call.moment (R.generation (R.installed call.moment)) ∧
      Recorded P.config (R.generation (R.installed call.moment)) call.reference value
  ordered : calls.Pairwise fun a b => R.installed a.moment ≤ R.installed b.moment

theorem rotation_is_seen (P : AcceptedPlugin) (R : Rotation P.config) (t : ℕ)
    (requests : List (ℕ × String)) :
    SeesRotation P R (serve P R.history.answers t requests) := by
  obtain ⟨hreplies, hordered⟩ := serve_spec P R.history.answers t requests
  constructor
  · intro call hcall value
    rw [(hreplies call hcall).2, resolve_iff]
    constructor
    · intro h
      obtain ⟨s, hcurrent, hrecorded⟩ := h
      obtain rfl := R.held _ s hcurrent.mem hcurrent.held
      exact ⟨hcurrent, hrecorded⟩
    · intro h
      exact ⟨_, h⟩
  · exact hordered.imp fun hle => R.monotone hle

/-- Two calls, the second of which begins after the second seal is in place. -/
def twoCalls : List Served :=
  serve singleReference twoSeals.history.answers 0 [(0, "db/password"), (5, "db/password")]

theorem twoCalls_replies :
    twoCalls.map Served.reply = [.ok (.ok ⟨"old"⟩), .ok (.ok ⟨"new"⟩)] := by
  have hseen : SeesRotation singleReference twoSeals twoCalls := rotation_is_seen _ _ _ _
  obtain ⟨first, second, hcalls, hfirst, hfirst', hsecond, hsecond'⟩ :
      ∃ first second, twoCalls = [first, second] ∧ first.moment = 0 ∧
        first.reference = "db/password" ∧ 5 ≤ second.moment ∧
        second.reference = "db/password" :=
    ⟨_, _, rfl, rfl, rfl, Nat.le_add_left _ _, rfl⟩
  rw [hcalls] at hseen ⊢
  have hold : first.reply = .ok (.ok ⟨"old"⟩) := by
    apply (hseen.resolved first (by simp) "old").mpr
    rw [hfirst, hfirst']
    exact ⟨current_twoSeals rfl, recorded_old⟩
  have hnew : second.reply = .ok (.ok ⟨"new"⟩) := by
    apply (hseen.resolved second (by simp) "new").mpr
    have hseal : twoSeals.generation (twoSeals.installed second.moment) = rotatedSeal 1 :=
      rotatedSeal_late hsecond
    have hcurrent : Current singleReference twoSeals.history second.moment
        (rotatedSeal (second.moment / 5)) := by
      apply current_twoSeals
      rw [rotatedSeal_late hsecond, rotatedSeal_late (Nat.le_succ_of_le hsecond)]
    refine ⟨hcurrent, ?_⟩
    rw [hseal, hsecond']
    exact recorded_new
  simp [hold, hnew]

end LensoSecrets.EncryptedFileProvider
