import Mathlib.Data.List.Basic
import Mathlib.Data.List.TakeDrop
import Mathlib.Tactic.Basic

/-!
# Byte readers and bounded reading

A reader is the list of what its source does: chunks of bytes, transient
interruptions and a fatal failure; the end of the list is the end of the stream.
One `read` with an `n`-byte buffer returns at most `n` bytes of the next chunk, and
no bytes exactly at the end. `takeReadToEnd` reads through a byte limit until the
end, retrying on interruptions.
-/
namespace LensoSecrets.ByteReaders

/-- What a source does next. A chunk is never empty. -/
inductive Event where
  | data (first : UInt8) (more : List UInt8)
  | interrupted
  | failed
deriving DecidableEq

abbrev Reader := List Event

/-- What one call of `read` returns; no bytes stand for the end of the stream. -/
inductive ReadResult where
  | bytes (chunk : List UInt8)
  | interrupted
  | failed
deriving DecidableEq

/-- One call of `read` with an `n`-byte buffer. -/
def read (n : ℕ) : Reader → ReadResult × Reader
  | [] => (.bytes [], [])
  | .data b bs :: rest => match (b :: bs).drop n with
    | [] => (.bytes (b :: bs), rest)
    | c :: cs => (.bytes ((b :: bs).take n), .data c cs :: rest)
  | .interrupted :: rest => (.interrupted, rest)
  | .failed :: rest => (.failed, rest)

/-- The bytes delivered before the end of the stream or its failure. -/
def content : Reader → List UInt8
  | [] => []
  | .data b bs :: rest => b :: bs ++ content rest
  | .interrupted :: rest => content rest
  | .failed :: _ => []

/-- The stream ends without a failure. -/
def clean : Reader → Bool
  | [] => true
  | .failed :: _ => false
  | _ :: rest => clean rest

/-- No read of the stream returns an error of any kind. -/
def quiet : Reader → Bool
  | [] => true
  | .data _ _ :: rest => quiet rest
  | _ :: _ => false

/-- Some read of the stream is interrupted before the stream ends or fails. -/
def interrupted : Reader → Bool
  | [] => false
  | .data _ _ :: rest => interrupted rest
  | .interrupted :: _ => true
  | .failed :: _ => false

/-- The bytes of all chunks together. -/
def total : Reader → ℕ
  | [] => 0
  | .data _ bs :: rest => bs.length + 1 + total rest
  | _ :: rest => total rest

/-- A bound on the number of reads a reader can still serve. -/
def weight (r : Reader) : ℕ := total r + r.length

theorem quiet_eq (r : Reader) : quiet r = (clean r && !interrupted r) := by
  induction r with
  | nil => rfl
  | cons e rest ih =>
    cases e with
    | data b bs => exact ih
    | interrupted => exact (Bool.and_false _).symm
    | failed => rfl

/-- The four things a read can do. -/
inductive ReadView (n : ℕ) : Reader → ReadResult × Reader → Prop
  | atEnd : ReadView n [] (.bytes [], [])
  | chunk {r rest : Reader} (b : UInt8) (bs : List UInt8) (hn : bs.length + 1 ≤ n)
      (hcontent : content r = b :: bs ++ content rest) (hclean : clean r = clean rest)
      (hquiet : quiet r = quiet rest) (htotal : total r = bs.length + 1 + total rest)
      (hlength : rest.length ≤ r.length) : ReadView n r (.bytes (b :: bs), rest)
  | interrupted (rest : Reader) : ReadView n (.interrupted :: rest) (.interrupted, rest)
  | failed (rest : Reader) : ReadView n (.failed :: rest) (.failed, rest)

theorem readView {n : ℕ} (hn : 0 < n) (r : Reader) : ReadView n r (read n r) := by
  cases r with
  | nil => exact .atEnd
  | cons e rest =>
    cases e with
    | interrupted => exact .interrupted rest
    | failed => exact .failed rest
    | data b bs =>
      cases hd : (b :: bs).drop n with
      | nil =>
        simp only [read, hd]
        have hlen : bs.length + 1 ≤ n := by simpa using hd
        exact .chunk b bs hlen rfl rfl rfl rfl (by simp)
      | cons c cs =>
        obtain ⟨k, rfl⟩ : ∃ k, n = k + 1 := ⟨n - 1, by omega⟩
        rw [List.drop_succ_cons] at hd
        have hlen := congrArg List.length hd
        simp only [List.length_drop, List.length_cons] at hlen
        have hjoin : bs.take k ++ c :: cs = bs := by rw [← hd, List.take_append_drop]
        simp only [read, List.drop_succ_cons, hd, List.take_succ_cons]
        refine .chunk b (bs.take k) ?_ ?_ rfl rfl ?_ (by simp)
        · rw [List.length_take]
          exact Nat.succ_le_succ (Nat.min_le_left k bs.length)
        · simpa [content] using congrArg (· ++ content rest) hjoin.symm
        · simp only [total, List.length_take]
          omega

/-- Every read that returns something makes progress. -/
theorem weight_read_lt {n : ℕ} (hn : 0 < n) (r : Reader) (h : (read n r).1 ≠ .bytes []) :
    weight (read n r).2 < weight r := by
  have hv := readView hn r
  generalize read n r = out at h hv
  cases hv with
  | atEnd => exact absurd rfl h
  | chunk b bs hlen hcontent hclean hquiet htotal hlength =>
    simp only [weight, htotal]
    omega
  | interrupted rest => simp [weight, total]
  | failed rest => simp [weight, total]

/-- What reading through a limit leaves behind. -/
structure ReadToEnd where
  bytes : List UInt8
  failed : Bool
  rest : Reader

/-- `reader.take(limit).read_to_end(..)`: no read once the limit is used up, a retry
after an interruption, a stop at the end of the stream or at a failure. -/
def takeReadToEnd (limit : ℕ) (reader : Reader) : ReadToEnd :=
  if limit = 0 then ⟨[], false, reader⟩
  else match h : read limit reader with
    | (.bytes [], rest) => ⟨[], false, rest⟩
    | (.bytes (b :: bs), rest) =>
      let tail := takeReadToEnd (limit - (bs.length + 1)) rest
      { tail with bytes := b :: bs ++ tail.bytes }
    | (.interrupted, rest) => takeReadToEnd limit rest
    | (.failed, rest) => ⟨[], true, rest⟩
termination_by weight reader
decreasing_by
  all_goals
    have hlt := weight_read_lt (Nat.pos_of_ne_zero ‹_›) reader (by simp [h])
    simpa [h] using hlt

theorem takeReadToEnd_zero (r : Reader) : takeReadToEnd 0 r = ⟨[], false, r⟩ := by
  rw [takeReadToEnd, if_pos rfl]

/-- One step of bounded reading, by what the first read returned. -/
theorem takeReadToEnd_step {limit : ℕ} (hl : 0 < limit) {r rest : Reader} {out : ReadResult}
    (h : read limit r = (out, rest)) :
    takeReadToEnd limit r = match out with
      | .bytes [] => ⟨[], false, rest⟩
      | .bytes (b :: bs) =>
        let tail := takeReadToEnd (limit - (bs.length + 1)) rest
        { tail with bytes := b :: bs ++ tail.bytes }
      | .interrupted => takeReadToEnd limit rest
      | .failed => ⟨[], true, rest⟩ := by
  rw [takeReadToEnd, if_neg (by omega)]
  split <;> rename_i heq <;> rw [h] at heq <;> cases heq <;> rfl

/-- Bounded reading by the four things a read can do. -/
theorem takeReadToEnd_induction {motive : ℕ → Reader → ReadToEnd → Prop}
    (full : ∀ r, motive 0 r ⟨[], false, r⟩)
    (atEnd : ∀ limit, 0 < limit → motive limit [] ⟨[], false, []⟩)
    (chunk : ∀ limit r rest b bs (tail : ReadToEnd), bs.length + 1 ≤ limit →
      content r = b :: bs ++ content rest → clean r = clean rest →
      total r = bs.length + 1 + total rest → motive (limit - (bs.length + 1)) rest tail →
      motive limit r { tail with bytes := b :: bs ++ tail.bytes })
    (interrupted : ∀ limit rest tail, 0 < limit → motive limit rest tail →
      motive limit (.interrupted :: rest) tail)
    (failed : ∀ limit rest, 0 < limit → motive limit (.failed :: rest) ⟨[], true, rest⟩)
    (limit : ℕ) (r : Reader) : motive limit r (takeReadToEnd limit r) := by
  rcases Nat.eq_zero_or_pos limit with rfl | hl
  · rw [takeReadToEnd_zero]
    exact full r
  · have hv := readView hl r
    have hlt := weight_read_lt hl r
    generalize hread : read limit r = out at hv hlt
    cases hv with
    | atEnd =>
      rw [takeReadToEnd_step hl hread]
      exact atEnd limit hl
    | chunk b bs hn hcontent hclean hquiet htotal hlength =>
      rename_i rest
      have hdec : weight rest < weight r := hlt (by simp)
      rw [takeReadToEnd_step hl hread]
      exact chunk limit r rest b bs _ hn hcontent hclean htotal
        (takeReadToEnd_induction full atEnd chunk interrupted failed _ rest)
    | interrupted rest =>
      have hdec : weight rest < weight (.interrupted :: rest) := hlt (by simp)
      rw [takeReadToEnd_step hl hread]
      exact interrupted limit rest _ hl
        (takeReadToEnd_induction full atEnd chunk interrupted failed limit rest)
    | failed rest =>
      rw [takeReadToEnd_step hl hread]
      exact failed limit rest hl
termination_by weight r

variable {limit : ℕ} {r : Reader}

/-- Bounded reading returns the content up to the limit. -/
theorem takeReadToEnd_bytes (limit : ℕ) (r : Reader) :
    (takeReadToEnd limit r).bytes = (content r).take limit := by
  induction limit, r using takeReadToEnd_induction with
  | full r => simp
  | atEnd limit hl => simp [content]
  | chunk limit r rest b bs tail hn hcontent hclean htotal ih =>
    have hlen : limit = (b :: bs).length + (limit - (bs.length + 1)) := by
      simp only [List.length_cons]
      omega
    rw [hcontent, ih]
    conv_rhs => rw [hlen, List.take_length_add_append]
  | interrupted limit rest tail hl ih => exact ih
  | failed limit rest hl => simp [content]

/-- It fails exactly when the stream fails before the limit is reached. -/
theorem takeReadToEnd_failed (limit : ℕ) (r : Reader) :
    (takeReadToEnd limit r).failed = (decide ((content r).length < limit) && !clean r) := by
  induction limit, r using takeReadToEnd_induction with
  | full r => simp
  | atEnd limit hl => simp [clean]
  | chunk limit r rest b bs tail hn hcontent hclean htotal ih =>
    rw [ih, hclean, hcontent, List.length_append, List.length_cons]
    congr 2
    simp only [eq_iff_iff]
    omega
  | interrupted limit rest tail hl ih => exact ih
  | failed limit rest hl => simp [content, clean, hl]

/-- The bytes returned are those taken from the reader. -/
theorem takeReadToEnd_total (limit : ℕ) (r : Reader) :
    total r = (takeReadToEnd limit r).bytes.length + total (takeReadToEnd limit r).rest := by
  induction limit, r using takeReadToEnd_induction with
  | full r => simp
  | atEnd limit hl => rfl
  | chunk limit r rest b bs tail hn hcontent hclean htotal ih =>
    simp only [htotal, ih, List.length_append, List.length_cons]
    omega
  | interrupted limit rest tail hl ih => exact ih
  | failed limit rest hl => simp [total]

/-- Below the limit, a successful reading has seen the end of the stream. -/
theorem takeReadToEnd_rest (hf : (takeReadToEnd limit r).failed = false)
    (hlt : (takeReadToEnd limit r).bytes.length < limit) :
    (takeReadToEnd limit r).rest = [] := by
  induction limit, r using takeReadToEnd_induction with
  | full r => simp at hlt
  | atEnd limit hl => rfl
  | chunk limit r rest b bs tail hn hcontent hclean htotal ih =>
    refine ih hf ?_
    simp only [List.length_append, List.length_cons] at hlt
    omega
  | interrupted limit rest tail hl ih => exact ih hf hlt
  | failed limit rest hl => simp at hf

/-- Reading one byte past a bound tells whether the whole stream fits into it. -/
theorem takeReadToEnd_succ_fits (bound : ℕ) (r : Reader) :
    (takeReadToEnd (bound + 1) r).failed = false ∧
        (takeReadToEnd (bound + 1) r).bytes.length ≤ bound ↔
      clean r = true ∧ (content r).length ≤ bound := by
  rw [takeReadToEnd_failed, takeReadToEnd_bytes, List.length_take]
  constructor
  · intro h
    obtain ⟨hf, hlen⟩ := h
    have hfit : (content r).length ≤ bound := by omega
    have hlt : decide ((content r).length < bound + 1) = true := by
      rw [decide_eq_true_iff]
      omega
    rw [hlt, Bool.true_and, Bool.not_eq_false'] at hf
    exact ⟨hf, hfit⟩
  · intro h
    obtain ⟨hc, hfit⟩ := h
    rw [hc, Bool.not_true, Bool.and_false]
    exact ⟨rfl, by omega⟩

/-- A stream that fits is returned whole and read to its end. -/
theorem takeReadToEnd_succ_eq {bound : ℕ} {r : Reader} (hc : clean r = true)
    (hfit : (content r).length ≤ bound) :
    (takeReadToEnd (bound + 1) r).bytes = content r ∧ (takeReadToEnd (bound + 1) r).rest = [] := by
  obtain ⟨hf, hlen⟩ := (takeReadToEnd_succ_fits bound r).mpr ⟨hc, hfit⟩
  refine ⟨?_, takeReadToEnd_rest hf (by omega)⟩
  rw [takeReadToEnd_bytes]
  exact List.take_of_length_le (by omega)

end LensoSecrets.ByteReaders
