import LensoSecrets.ResolverProcess

/-!
# The value a resolver process returns

A run returns a value exactly for a successful exit, two pipes without a read error and
a whole standard output within the limit that is UTF-8 and not empty without its line
ending; the value is that output.
-/
namespace LensoSecrets.CommandProvider
open ByteReaders EarlyExit OrderedMaps QueryPrograms StandardLibrary

/-- The text is the value with at most one line ending, `\n` or `\r\n`, after it. -/
def HasLineEnding (text value : String) : Prop :=
  text = value ++ "\r\n" ∨ (text = value ++ "\n" ∧ endsWith value '\r' = false) ∨
    (text = value ∧ endsWith text '\n' = false)

theorem append_newline (value : String) : value ++ "\n" = value.push '\n' := by
  apply String.toList_inj.mp
  rw [String.toList_append, String.toList_push]
  rfl

theorem append_carriageReturn_newline (value : String) :
    value ++ "\r\n" = (value.push '\r').push '\n' := by
  apply String.toList_inj.mp
  rw [String.toList_append, String.toList_push, String.toList_push, List.append_assoc]
  rfl

theorem stripLineEnding_eq_iff {text value : String} :
    stripLineEnding text = value ↔ HasLineEnding text value := by
  rw [HasLineEnding, append_newline, append_carriageReturn_newline]
  constructor
  · intro h
    cases hn : endsWith text '\n' with
    | false =>
      simp only [stripLineEnding, hn, Bool.false_eq_true, if_false] at h
      exact Or.inr (Or.inr ⟨h, rfl⟩)
    | true =>
      obtain ⟨w, rfl⟩ := endsWith_eq_true.mp hn
      simp only [stripLineEnding, hn, if_true, pop_push] at h
      cases hr : endsWith w '\r' with
      | false =>
        simp only [hr, Bool.false_eq_true, if_false] at h
        exact Or.inr (Or.inl ⟨by rw [h], h ▸ hr⟩)
      | true =>
        obtain ⟨u, rfl⟩ := endsWith_eq_true.mp hr
        simp only [hr, if_true, pop_push] at h
        exact Or.inl (by rw [h])
  · intro h
    rcases h with rfl | ⟨rfl, hr⟩ | ⟨rfl, hn⟩
    · simp only [stripLineEnding, endsWith_push, if_true, pop_push]
    · simp only [stripLineEnding, endsWith_push, if_true, pop_push, hr, Bool.false_eq_true,
        if_false]
    · simp only [stripLineEnding, hn, Bool.false_eq_true, if_false]

variable {request : CommandRequest} {child : Child} {stdout stderr : Reader}
variable {status : ExitStatus}

/-- What `run_command` makes of a child that has exited. -/
theorem superviseChild_eq_ok (hout : child.stdout = some stdout) (herr : child.stderr = some stderr)
    (hwait : (waitForChild request.timeout child.polls 0).status = .ok status) (value : String) :
    (superviseChild request child).1 = .ok value ↔ status.success = true ∧
      quiet stdout = true ∧ quiet stderr = true ∧
      (content stdout).length ≤ request.maxOutputBytes ∧
      ∃ text, bytes text = content stdout ∧ HasLineEnding text value ∧ value ≠ "" := by
  simp only [superviseChild, hout, herr, hwait, readBounded_fst, bind_eq_ok, Except.ok.injEq]
  constructor
  · intro h
    obtain ⟨_, rfl, out, hstdout, _, hstderr, _, haccept, text, htext, _, hempty, hvalue⟩ := h
    split_ifs at hstdout with hq
    split_ifs at hstderr with hq'
    obtain rfl := Except.ok.inj hstdout
    simp only [rejectIf_eq_ok, Bool.or_eq_false_iff, Bool.not_eq_false', decide_eq_false_iff_not,
      not_lt] at haccept
    obtain ⟨hsuccess, hfit⟩ := haccept
    rw [List.take_of_length_le hfit, Fallible.elim_eq_ok, fromUtf8_eq_some] at htext
    obtain rfl : stripLineEnding text = value := Except.ok.inj hvalue
    refine ⟨hsuccess, hq, hq', hfit, text, htext, stripLineEnding_eq_iff.mp rfl, ?_⟩
    simpa using hempty
  · intro h
    obtain ⟨hsuccess, hq, hq', hfit, text, htext, hending, hne⟩ := h
    have hstrip := stripLineEnding_eq_iff.mpr hending
    refine ⟨status, rfl, _, if_pos hq, _, if_pos hq', (), ?_, text, ?_, (), ?_, ?_⟩
    · simpa [hsuccess] using hfit
    · rw [List.take_of_length_le hfit, Fallible.elim_eq_ok, fromUtf8_eq_some]
      exact htext
    · simpa [hstrip] using hne
    · rw [hstrip]
      rfl

theorem superviseChild_ne_empty {value : String}
    (h : (superviseChild request child).1 = .ok value) : value ≠ "" := by
  unfold superviseChild at h
  split at h
  · simp only [bind_eq_ok, rejectIf_eq_ok] at h
    obtain ⟨_, -, _, -, _, -, _, -, text, -, _, hempty, hvalue⟩ := h
    rw [← Except.ok.inj hvalue]
    simpa using hempty
  · contradiction

theorem runCommand_ne_empty {h : History Access.Answer} {t : ℕ} {value : String}
    (hr : Program.result h t (runCommand request).run = .ok value) : value ≠ "" := by
  rw [result_runCommand] at hr
  split_ifs at hr
  generalize h _ _ = spawned at hr
  cases spawned with
  | none => contradiction
  | some child => exact superviseChild_ne_empty hr

/-- A resolver run returns a value exactly if its thread is started, the command returns the
value there, and the message with it arrives. -/
theorem resolverThread_eq_ok {h : History Access.Answer} {t : ℕ} {value : String} :
    Program.result h t (resolverThread request).run = .ok value ↔
      h t .spawnThread = true ∧
      Program.result h (t + 1) (runCommand request).run = .ok value ∧
      h (t + 1 + (Program.transcript h (t + 1) (runCommand request).run).length) .receive =
        true := by
  rw [resolverThread_eq, Program.result_ask]
  by_cases hstarted : h t .spawnThread = true
  · rw [if_pos hstarted, Program.result_bind, Program.result_ask, Program.result_done]
    constructor
    · intro hr
      split_ifs at hr with hreceived
      exact ⟨hstarted, hr, hreceived⟩
    · intro hr
      obtain ⟨-, hvalue, hreceived⟩ := hr
      rw [if_pos hreceived]
      exact hvalue
  · rw [if_neg hstarted, Program.result_done]
    simp [hstarted]

/-- A spawned child decides what a run returns. -/
theorem result_runCommand_of_spawn {h : History Access.Answer} {t : ℕ} {process : Process}
    (hspawn : ⟨.spawn process, some child⟩ ∈ Program.transcript h t (runCommand request).run) :
    Program.result h t (runCommand request).run = (superviseChild request child).1 := by
  obtain ⟨hpath, rfl, hchild⟩ := spawn_mem_transcript.mp hspawn
  rw [result_runCommand, if_pos hpath, ← hchild]
  rfl

/-- Given the check of the program and the spawn, and a status from the wait, a run
returns exactly the whole standard output of a successful exit without its line ending.
Neither the splitting of the streams nor what standard error holds matters; neither
reader ever accumulates more than the limit, and both pipes are read to their ends. -/
theorem runCommand_returns_whole_output {h : History Access.Answer} {t : ℕ} {process : Process}
    (hspawn : ⟨.spawn process, some child⟩ ∈ Program.transcript h t (runCommand request).run)
    (hout : child.stdout = some stdout) (herr : child.stderr = some stderr)
    (hwait : (waitForChild request.timeout child.polls 0).status = .ok status) :
    (∀ value, Program.result h t (runCommand request).run = .ok value ↔
      status.success = true ∧ quiet stdout = true ∧ quiet stderr = true ∧
      (content stdout).length ≤ request.maxOutputBytes ∧
      ∃ text, bytes text = content stdout ∧ HasLineEnding text value ∧ value ≠ "") ∧
    (∀ child' stdout' stderr', child'.stdout = some stdout' → child'.stderr = some stderr' →
      child'.polls = child.polls → content stdout' = content stdout →
      quiet stdout' = quiet stdout → quiet stderr' = quiet stderr →
      (superviseChild request child').1 = Program.result h t (runCommand request).run) ∧
    (∀ pipe ∈ [stdout, stderr], ∀ head,
      Passes request.maxOutputBytes ⟨[], false, pipe⟩ head →
        head.bytes.length ≤ request.maxOutputBytes) ∧
    (∀ pipe ∈ [stdout, stderr], quiet pipe = true →
      (readBounded pipe request.maxOutputBytes).2 = []) := by
  refine ⟨?_, ?_, ?_, ?_⟩
  · intro value
    rw [result_runCommand_of_spawn hspawn]
    exact superviseChild_eq_ok hout herr hwait value
  · intro child' stdout' stderr' hout' herr' hpolls hcontent hquiet hquiet'
    rw [result_runCommand_of_spawn hspawn]
    refine eq_of_ok_iff (fun value => ?_)
    rw [superviseChild_eq_ok hout' herr' (hpolls ▸ hwait), superviseChild_eq_ok hout herr hwait,
      hcontent, hquiet, hquiet']
  · intro pipe _ head hpasses
    exact hpasses.length_le (keeps_start request.maxOutputBytes pipe)
  · intro pipe _ hq
    exact readBounded_snd hq request.maxOutputBytes

/-- A resolver that prints `v` and a line feed, in two pieces, and exits. -/
def printingChild : Child where
  stdout := some [.data 0x76 [], .data 0x0A []]
  stderr := some [.data 0x21 []]
  polls := ⟨fun i => ⟨.exited ⟨some 0⟩, i * pollInterval, false⟩, fun i => by
    dsimp only
    rw [Nat.succ_mul]⟩

theorem superviseChild_printingChild (hfit : 2 ≤ request.maxOutputBytes) :
    (superviseChild request printingChild).1 = .ok "v" := by
  have hexited : (printingChild.polls.poll 0).tryWait = .exited ⟨some 0⟩ := rfl
  have hwait : (waitForChild request.timeout printingChild.polls 0).status = .ok ⟨some 0⟩ := by
    rw [waitForChild_of_exited hexited]
  have hout : printingChild.stdout = some [.data 0x76 [], .data 0x0A []] := rfl
  have herr : printingChild.stderr = some [.data 0x21 []] := rfl
  exact (superviseChild_eq_ok hout herr hwait "v").mpr ⟨rfl, rfl, rfl, hfit, "v\n", by decide,
    Or.inr (Or.inl ⟨by decide, by decide⟩), by decide⟩

def printingRequest : CommandRequest :=
  ⟨bytes "/bin/resolver", bytes "/bin/resolver", ["name"], [], 1000000, 2⟩

def printingAnswers : Oracle Access.Answer
  | .canonicalize path => some path
  | .isFile _ => true
  | .spawnThread => true
  | .varOs _ => none
  | .spawn _ => some printingChild
  | .receive => true

theorem runCommand_returns_printed_value :
    Program.result (fun _ => printingAnswers) 0 (runCommand printingRequest).run = .ok "v" := by
  have hspawn : ⟨.spawn ⟨bytes "/bin/resolver", ["name"], OrderedMap.empty⟩, some printingChild⟩ ∈
      Program.transcript (fun _ => printingAnswers) 0 (runCommand printingRequest).run :=
    spawn_mem_transcript.mpr ⟨rfl, rfl, rfl⟩
  have hexited : (printingChild.polls.poll 0).tryWait = .exited ⟨some 0⟩ := rfl
  have hwait : (waitForChild printingRequest.timeout printingChild.polls 0).status =
      .ok ⟨some 0⟩ := by
    rw [waitForChild_of_exited hexited]
  refine ((runCommand_returns_whole_output hspawn rfl rfl hwait).1 "v").mpr ?_
  exact ⟨rfl, rfl, rfl, by decide, "v\n", by decide, Or.inr (Or.inl ⟨by decide, by decide⟩),
    by decide⟩

end LensoSecrets.CommandProvider
