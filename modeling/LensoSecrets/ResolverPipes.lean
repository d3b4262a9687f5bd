import LensoSecrets.ByteReaders

/-!
# The pipes of a resolver process

The command Provider's `read_bounded`: a loop over reads with an 8192-byte buffer that
keeps the first bytes up to a limit, remembers whether there were more, and reads on to
the end of the stream. Any error of a read ends it, an interruption too.
-/
namespace LensoSecrets.CommandProvider
open ByteReaders

structure BoundedOutput where
  bytes : List UInt8
  overflow : Bool
deriving DecidableEq

/-- The variables at the head of the loop, with the stream that is left. -/
structure LoopHead where
  bytes : List UInt8
  overflow : Bool
  reader : Reader

/-- How one turn of the loop ends. -/
inductive Turn where
  | again (head : LoopHead)
  | finished (result : Except Unit BoundedOutput) (rest : Reader)

def readTurn (limit : ℕ) (head : LoopHead) : Turn :=
  match read 8192 head.reader with
  | (.bytes [], rest) => .finished (.ok ⟨head.bytes, head.overflow⟩) rest
  | (.bytes (b :: bs), rest) =>
    let remaining := limit - head.bytes.length
    let retained := min remaining (bs.length + 1)
    .again {
      bytes := head.bytes ++ (b :: bs).take retained
      overflow := head.overflow || decide (retained < bs.length + 1)
      reader := rest }
  | (.interrupted, rest) => .finished (.error ()) rest
  | (.failed, rest) => .finished (.error ()) rest

/-- The four ways a turn can go, with what it does to the stream. -/
inductive TurnView (limit : ℕ) (head : LoopHead) : Turn → Prop
  | atEnd (h : head.reader = []) :
      TurnView limit head (.finished (.ok ⟨head.bytes, head.overflow⟩) [])
  | chunk (b : UInt8) (bs : List UInt8) (rest : Reader)
      (hcontent : content head.reader = b :: bs ++ content rest)
      (hquiet : quiet head.reader = quiet rest) (hweight : weight rest < weight head.reader) :
      TurnView limit head (.again {
        bytes := head.bytes ++ (b :: bs).take (min (limit - head.bytes.length) (bs.length + 1))
        overflow := head.overflow ||
          decide (min (limit - head.bytes.length) (bs.length + 1) < bs.length + 1)
        reader := rest })
  | error (rest : Reader) (hquiet : quiet head.reader = false) :
      TurnView limit head (.finished (.error ()) rest)

theorem turnView (limit : ℕ) (head : LoopHead) : TurnView limit head (readTurn limit head) := by
  obtain ⟨bytes, overflow, reader⟩ := head
  have hview := readView (by decide : 0 < 8192) reader
  have hweight := weight_read_lt (by decide : 0 < 8192) reader
  unfold readTurn
  dsimp only
  generalize read 8192 reader = out at hview hweight
  cases hview with
  | atEnd => exact .atEnd rfl
  | chunk b bs hn hcontent hclean hquiet htotal hlength =>
    exact .chunk b bs _ hcontent hquiet (hweight (by simp))
  | interrupted rest => exact .error rest rfl
  | failed rest => exact .error rest rfl

theorem weight_readTurn_lt {limit : ℕ} {head next : LoopHead}
    (h : readTurn limit head = .again next) : weight next.reader < weight head.reader := by
  have hview := turnView limit head
  rw [h] at hview
  cases hview with
  | chunk b bs rest hcontent hquiet hweight => exact hweight

def readLoop (limit : ℕ) (head : LoopHead) : Except Unit BoundedOutput × Reader :=
  match _hturn : readTurn limit head with
  | .finished result rest => (result, rest)
  | .again next => readLoop limit next
termination_by weight head.reader
decreasing_by exact weight_readTurn_lt _hturn

def readBounded (reader : Reader) (limit : ℕ) : Except Unit BoundedOutput × Reader :=
  readLoop limit ⟨[], false, reader⟩

theorem readLoop_finished {limit : ℕ} {head : LoopHead} {result : Except Unit BoundedOutput}
    {rest : Reader} (h : readTurn limit head = .finished result rest) :
    readLoop limit head = (result, rest) := by
  rw [readLoop]
  split
  · rename_i heq
    rw [h] at heq
    cases heq
    rfl
  · rename_i heq
    rw [h] at heq
    cases heq

theorem readLoop_again {limit : ℕ} {head next : LoopHead}
    (h : readTurn limit head = .again next) : readLoop limit head = readLoop limit next := by
  rw [readLoop]
  split
  · rename_i heq
    rw [h] at heq
    cases heq
  · rename_i heq
    rw [h] at heq
    cases heq
    rfl

/-- The heads the loop passes through. -/
inductive Passes (limit : ℕ) : LoopHead → LoopHead → Prop
  | refl (head : LoopHead) : Passes limit head head
  | turn {head next last : LoopHead} (h : readTurn limit head = .again next)
      (hnext : Passes limit next last) : Passes limit head last

/-- After the bytes `seen` the loop keeps the first of them and knows whether it dropped
any. -/
structure Keeps (limit : ℕ) (seen : List UInt8) (head : LoopHead) : Prop where
  bytes : head.bytes = seen.take limit
  overflow : head.overflow = decide (limit < seen.length)

variable {limit : ℕ} {seen : List UInt8} {head next : LoopHead}

/-- One turn keeps the invariant over the bytes of its chunk. -/
theorem Keeps.chunk (hk : Keeps limit seen head) (chunk : List UInt8) (rest : Reader) :
    Keeps limit (seen ++ chunk) {
      bytes := head.bytes ++ chunk.take (min (limit - head.bytes.length) chunk.length)
      overflow := head.overflow ||
        decide (min (limit - head.bytes.length) chunk.length < chunk.length)
      reader := rest } := by
  have hlen : head.bytes.length = min limit seen.length := by
    rw [hk.bytes, List.length_take]
  have hroom : limit - head.bytes.length = limit - seen.length := by omega
  constructor
  · dsimp only
    rw [hroom, List.take_append, ← List.take_take, List.take_length, ← hk.bytes]
  · dsimp only
    rw [hk.overflow, hroom, List.length_append]
    rw [← Bool.decide_or]
    exact decide_eq_decide.mpr (by omega)

/-- From a head that has seen some bytes the loop ends at the end of the stream, having
kept the first bytes of all of them, or with an error if some read gives one. -/
theorem readLoop_spec {limit : ℕ} {seen : List UInt8} {head : LoopHead}
    (hk : Keeps limit seen head) :
    (readLoop limit head).1 = (if quiet head.reader then
      .ok ⟨(seen ++ content head.reader).take limit,
        decide (limit < (seen ++ content head.reader).length)⟩ else .error ()) ∧
    (quiet head.reader = true → (readLoop limit head).2 = []) := by
  have hview := turnView limit head
  generalize hturn : readTurn limit head = turn at hview
  cases hview with
  | atEnd hend =>
    rw [readLoop_finished hturn, hend, hk.bytes, hk.overflow]
    simp [quiet, content]
  | chunk b bs rest hcontent hquiet hweight =>
    have hkeeps := hk.chunk (b :: bs) rest
    rw [readLoop_again hturn, hquiet, hcontent, ← List.append_assoc]
    exact readLoop_spec hkeeps
  | error rest hquiet =>
    rw [readLoop_finished hturn, hquiet]
    exact ⟨rfl, fun h => absurd h Bool.false_ne_true⟩
termination_by weight head.reader

theorem keeps_start (limit : ℕ) (reader : Reader) : Keeps limit [] ⟨[], false, reader⟩ :=
  ⟨by simp, by simp⟩

theorem readBounded_fst (reader : Reader) (limit : ℕ) :
    (readBounded reader limit).1 = if quiet reader then
      .ok ⟨(content reader).take limit, decide (limit < (content reader).length)⟩
    else .error () :=
  (readLoop_spec (keeps_start limit reader)).1

/-- A stream without a read error is read to its end, whatever the limit. -/
theorem readBounded_snd {reader : Reader} (hq : quiet reader = true) (limit : ℕ) :
    (readBounded reader limit).2 = [] :=
  (readLoop_spec (keeps_start limit reader)).2 hq

/-- At every head of the loop no more than the limit has been accumulated. -/
theorem Passes.length_le (h : Passes limit head next) (hk : Keeps limit seen head) :
    next.bytes.length ≤ limit := by
  induction h generalizing seen with
  | refl head =>
    rw [hk.bytes]
    exact List.length_take_le limit seen
  | @turn head next last hturn hnext ih =>
    have hview := turnView limit head
    rw [hturn] at hview
    cases hview with
    | chunk b bs rest => exact ih (hk.chunk (b :: bs) rest)

end LensoSecrets.CommandProvider
