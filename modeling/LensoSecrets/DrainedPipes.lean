import LensoSecrets.ResolverPipes

/-!
# A pipe and the thread that drains it

The child and its descendants write to a pipe of bounded capacity while a thread of
`read_bounded` takes turns at reading it. At every moment the thread has read a prefix of
what was written, and it keeps of that what the limit allows.
-/
namespace LensoSecrets.CommandProvider
open ByteReaders

/-- A pipe with the thread that reads it: everything written so far, what no read has
taken yet, whether a process still holds the write end, the reads the thread has made, the
variables of its loop, and what it has returned. -/
structure Pipe where
  written : List UInt8
  buffered : List UInt8
  writers : Bool
  reads : Reader
  bytes : List UInt8
  overflow : Bool
  result : Option (Except Unit BoundedOutput)

/-- What a call of `read` on the pipe meets. -/
inductive Serving where
  | bytes (n : ℕ)
  | atEnd
  | interrupted
  | failed
deriving DecidableEq

namespace Pipe

def fresh : Pipe := ⟨[], [], true, [], [], false, none⟩

/-- The read end is dropped when the thread returns. -/
def Open (p : Pipe) : Prop := p.result = none

instance (p : Pipe) : Decidable p.Open := inferInstanceAs (Decidable (p.result = none))

/-- What the read does and what it leaves in the pipe, unless it blocks. -/
def serve (p : Pipe) : Serving → Option (Reader × List UInt8)
  | .bytes n => match p.buffered.take (min n 8192) with
    | [] => none
    | b :: bs => some ([.data b bs], p.buffered.drop (min n 8192))
  | .atEnd => if p.buffered.isEmpty && !p.writers then some ([], []) else none
  | .interrupted => some ([.interrupted], p.buffered)
  | .failed => some ([.failed], p.buffered)

/-- One turn of the thread's loop. -/
def turn (limit : ℕ) (p : Pipe) (serving : Serving) : Pipe :=
  match p.result, p.serve serving with
  | none, some (events, left) => match readTurn limit ⟨p.bytes, p.overflow, events⟩ with
    | .again head => { p with
        buffered := left
        reads := p.reads ++ events
        bytes := head.bytes
        overflow := head.overflow }
    | .finished result _ => { p with
        buffered := left
        reads := p.reads ++ events
        result := some result }
  | _, _ => p

/-- A write that fits. -/
def write (capacity : ℕ) (p : Pipe) (bytes : List UInt8) : Pipe :=
  if p.writers = true ∧ p.Open ∧ p.buffered.length + bytes.length ≤ capacity then
    { p with written := p.written ++ bytes, buffered := p.buffered ++ bytes }
  else p

/-- The last process that holds the write end closes it. -/
def close (p : Pipe) : Pipe := { p with writers := false }

/-- What the thread has returned, if it has, for the reads it has made. -/
inductive Result (p : Pipe) : Option (Except Unit BoundedOutput) → Prop
  | reading (hquiet : quiet p.reads = true) : Result p none
  | drained (hquiet : quiet p.reads = true) (hempty : p.buffered = [])
    (hclosed : p.writers = false) :
      Result p (some (.ok ⟨p.bytes, p.overflow⟩))
  | broken (hquiet : quiet p.reads = false) : Result p (some (.error ()))

/-- The bytes read so far and those in the pipe are the bytes written; the thread keeps the
first of those it has read. -/
structure Sound (limit capacity : ℕ) (p : Pipe) : Prop where
  split : p.written = content p.reads ++ p.buffered
  room : p.buffered.length ≤ capacity
  keeps : Keeps limit (content p.reads) ⟨p.bytes, p.overflow, []⟩
  result : Result p p.result

theorem content_append {reads : Reader} (h : quiet reads = true) (later : Reader) :
    content (reads ++ later) = content reads ++ content later := by
  induction reads with
  | nil => rfl
  | cons e reads ih =>
    cases e with
    | data b bs =>
      rw [List.cons_append, content, ih h, content, List.append_assoc]
    | interrupted => cases h
    | failed => cases h

theorem quiet_append (reads later : Reader) :
    quiet (reads ++ later) = (quiet reads && quiet later) := by
  induction reads with
  | nil => rfl
  | cons e reads ih =>
    cases e with
    | data b bs => exact ih
    | interrupted => rfl
    | failed => rfl

/-- The four ways a turn can go. -/
inductive Turned (limit : ℕ) (p : Pipe) : Pipe → Prop
  | same : Turned limit p p
  | chunk (b : UInt8) (bs left : List UInt8) (hopen : p.result = none)
      (hbuffered : p.buffered = b :: bs ++ left) :
      Turned limit p { p with
        buffered := left
        reads := p.reads ++ [.data b bs]
        bytes := p.bytes ++ (b :: bs).take (min (limit - p.bytes.length) (bs.length + 1))
        overflow := p.overflow ||
          decide (min (limit - p.bytes.length) (bs.length + 1) < bs.length + 1)
        result := none }
  | atEnd (hopen : p.result = none) (hempty : p.buffered = []) (hclosed : p.writers = false) :
      Turned limit p { p with result := some (.ok ⟨p.bytes, p.overflow⟩) }
  | error (e : Event) (hopen : p.result = none) (hevent : e = .interrupted ∨ e = .failed) :
      Turned limit p { p with reads := p.reads ++ [e], result := some (.error ()) }

theorem turned (limit : ℕ) (p : Pipe) (serving : Serving) :
    Turned limit p (p.turn limit serving) := by
  unfold turn
  cases hopen : p.result with
  | some result => exact .same
  | none =>
    cases serving with
    | bytes n =>
      have hjoin := List.take_append_drop (min n 8192) p.buffered
      have hlength : (p.buffered.take (min n 8192)).length ≤ 8192 := by
        rw [List.length_take]
        omega
      simp only [serve]
      generalize p.buffered.take (min n 8192) = chunk at hjoin hlength
      cases chunk with
      | nil => exact .same
      | cons b bs =>
        have hread : ByteReaders.read 8192 [.data b bs] = (.bytes (b :: bs), []) := by
          have hdrop : (b :: bs).drop 8192 = [] := List.drop_eq_nil_of_le hlength
          simp only [ByteReaders.read, hdrop]
        simp only [readTurn, hread]
        exact .chunk b bs _ hopen hjoin.symm
    | atEnd =>
      simp only [serve]
      by_cases hend : (p.buffered.isEmpty && !p.writers) = true
      · rw [if_pos hend]
        simp only [Bool.and_eq_true, List.isEmpty_iff, Bool.not_eq_true'] at hend
        have hsame : p.buffered = [] := hend.1
        simp only [readTurn, ByteReaders.read, List.append_nil]
        rw [← hsame]
        exact .atEnd hopen hend.1 hend.2
      · rw [if_neg hend]
        exact .same
    | interrupted => exact .error .interrupted hopen (Or.inl rfl)
    | failed => exact .error .failed hopen (Or.inr rfl)

variable {limit capacity : ℕ} {p : Pipe}

theorem sound_fresh (limit capacity : ℕ) : Sound limit capacity fresh :=
  ⟨rfl, Nat.zero_le _, keeps_start limit [], .reading rfl⟩

theorem Sound.quiet_of_open (h : Sound limit capacity p) (hopen : p.result = none) :
    quiet p.reads = true := by
  have hresult := h.result
  rw [hopen] at hresult
  cases hresult with
  | reading hquiet => exact hquiet

theorem Sound.turn (h : Sound limit capacity p) (serving : Serving) :
    Sound limit capacity (p.turn limit serving) := by
  have hturned := turned limit p serving
  generalize p.turn limit serving = p' at hturned
  cases hturned with
  | same => exact h
  | chunk b bs left hopen hbuffered =>
    have hquiet := h.quiet_of_open hopen
    have hcontent : content (p.reads ++ [.data b bs]) = content p.reads ++ (b :: bs) := by
      rw [content_append hquiet]
      simp [content]
    refine ⟨?_, ?_, ?_, ?_⟩
    · rw [h.split, hcontent, hbuffered, List.append_assoc]
    · have hroom := h.room
      rw [hbuffered, List.length_append] at hroom
      dsimp only
      omega
    · rw [hcontent]
      exact h.keeps.chunk (b :: bs) []
    · refine .reading ?_
      rw [quiet_append, hquiet]
      rfl
  | atEnd hopen hempty hclosed =>
    exact ⟨h.split, h.room, h.keeps, .drained (h.quiet_of_open hopen) hempty hclosed⟩
  | error e hopen hevent =>
    have hquiet := h.quiet_of_open hopen
    have hcontent : content (p.reads ++ [e]) = content p.reads := by
      rw [content_append hquiet]
      rcases hevent with rfl | rfl
      · exact List.append_nil _
      · exact List.append_nil _
    refine ⟨?_, h.room, ?_, ?_⟩
    · rw [hcontent]
      exact h.split
    · rw [hcontent]
      exact h.keeps
    · refine .broken ?_
      rw [quiet_append]
      rcases hevent with rfl | rfl
      · exact Bool.and_false _
      · exact Bool.and_false _

theorem Sound.write (h : Sound limit capacity p) (bytes : List UInt8) :
    Sound limit capacity (p.write capacity bytes) := by
  unfold Pipe.write
  split_ifs with hfits
  · obtain ⟨hwriters, hopen, hroom⟩ := hfits
    have hnone : p.result = none := hopen
    refine ⟨?_, ?_, h.keeps, ?_⟩
    · dsimp only
      rw [h.split, List.append_assoc]
    · dsimp only
      rw [List.length_append]
      exact hroom
    · dsimp only
      rw [hnone]
      exact .reading (h.quiet_of_open hnone)
  · exact h

theorem Sound.close (h : Sound limit capacity p) : Sound limit capacity p.close := by
  refine ⟨h.split, h.room, h.keeps, ?_⟩
  have hresult := h.result
  dsimp only [Pipe.close]
  generalize p.result = result at hresult
  cases hresult with
  | reading hquiet => exact .reading hquiet
  | drained hquiet hempty hclosed => exact .drained hquiet hempty rfl
  | broken hquiet => exact .broken hquiet

/-- What the thread has returned is what `read_bounded` returns for its reads. -/
theorem Sound.readBounded_eq (h : Sound limit capacity p) {result : Except Unit BoundedOutput}
    (hresult : p.result = some result) : (readBounded p.reads limit).1 = result := by
  have hr := h.result
  rw [hresult] at hr
  rw [readBounded_fst]
  cases hr with
  | drained hquiet hempty hclosed =>
    rw [hquiet, if_pos rfl]
    have hbytes := h.keeps.bytes
    have hoverflow := h.keeps.overflow
    dsimp only at hbytes hoverflow
    rw [hbytes, hoverflow]
  | broken hquiet =>
    rw [hquiet]
    rfl

/-- A thread that has returned its output has read all that was ever written. -/
theorem Sound.whole_of_ok (h : Sound limit capacity p) {out : BoundedOutput}
    (hresult : p.result = some (.ok out)) :
    p.writers = false ∧ p.buffered = [] ∧ out.bytes = p.written.take limit ∧
      out.overflow = decide (limit < p.written.length) := by
  have hr := h.result
  rw [hresult] at hr
  cases hr with
  | drained hquiet hempty hclosed =>
    have hsplit := h.split
    rw [hempty, List.append_nil] at hsplit
    rw [hsplit]
    exact ⟨hclosed, hempty, h.keeps.bytes, h.keeps.overflow⟩

theorem turn_of_result {result : Except Unit BoundedOutput} (h : p.result = some result)
    (serving : Serving) : p.turn limit serving = p := by
  unfold turn
  rw [h]

end Pipe
end LensoSecrets.CommandProvider
