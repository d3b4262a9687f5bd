import LensoSecrets.EncryptedFileLoads
import LensoSecrets.ResolverPipes

/-!
# The two bounded readers

The command Provider's reader drains a stream with a loop of its own, the encrypted-file
Provider's reads through a limit to the end. They accept the same streams and return the
same bytes, but for one thing: the loop gives up when a read is interrupted.
-/
namespace LensoSecrets.ReaderAgreement
open ByteReaders

/-- The streams the readers accept are the same, and so are the bytes they return. -/
def SameBytes (reader : Reader) (limit : ℕ) : Prop :=
  ∀ bytes, ((CommandProvider.readBounded reader limit).1 = .ok ⟨bytes, false⟩ ∧ bytes ≠ []) ↔
    (EncryptedFileProvider.readBounded reader limit).1 = .ok bytes

variable {reader : Reader} {limit : ℕ} {bytes : List UInt8}

/-- The loop returns a stream that fits if no read of it gives an error. -/
theorem command_readBounded_iff :
    ((CommandProvider.readBounded reader limit).1 = .ok ⟨bytes, false⟩ ∧ bytes ≠ []) ↔
      quiet reader = true ∧ content reader = bytes ∧ bytes ≠ [] ∧ bytes.length ≤ limit := by
  rw [CommandProvider.readBounded_fst]
  constructor
  · intro h
    obtain ⟨hok, hne⟩ := h
    split_ifs at hok with hquiet
    obtain ⟨hbytes, hoverflow⟩ := CommandProvider.BoundedOutput.mk.inj (Except.ok.inj hok)
    have hfit : (content reader).length ≤ limit := by
      rw [decide_eq_false_iff_not] at hoverflow
      omega
    rw [List.take_of_length_le hfit] at hbytes
    rw [hbytes] at hfit
    exact ⟨hquiet, hbytes, hne, hfit⟩
  · intro h
    obtain ⟨hquiet, rfl, hne, hfit⟩ := h
    have hoverflow : decide (limit < (content reader).length) = false := by
      rw [decide_eq_false_iff_not]
      omega
    rw [if_pos hquiet, List.take_of_length_le hfit, hoverflow]
    exact ⟨rfl, hne⟩

/-- Reading to the end returns a stream that fits if it does not fail. -/
theorem encryptedFile_readBounded_iff (hlimit : limit + 1 < 2 ^ 64) :
    (EncryptedFileProvider.readBounded reader limit).1 = .ok bytes ↔
      clean reader = true ∧ content reader = bytes ∧ bytes ≠ [] ∧ bytes.length ≤ limit := by
  constructor
  · intro h
    obtain ⟨hwhole, hpos, hfit⟩ := EncryptedFileProvider.readBounded_ok hlimit h
    exact ⟨hwhole.clean, hwhole.content, List.ne_nil_of_length_pos hpos, hfit⟩
  · intro h
    obtain ⟨hclean, rfl, hne, hfit⟩ := h
    have hpos : 1 ≤ (content reader).length := List.length_pos_of_ne_nil hne
    exact EncryptedFileProvider.readBounded_of_fits hlimit hclean hpos hfit

/-- The readers agree exactly on the streams without an interruption and on those that
both refuse: streams that fail, are empty or are longer than the limit. -/
theorem sameBytes_iff (reader : Reader) {limit : ℕ} (hlimit : limit + 1 < 2 ^ 64) :
    SameBytes reader limit ↔ interrupted reader = false ∨ clean reader = false ∨
      content reader = [] ∨ limit < (content reader).length := by
  unfold SameBytes
  simp only [command_readBounded_iff, encryptedFile_readBounded_iff hlimit]
  constructor
  · intro hsame
    by_contra hcon
    rw [not_or, not_or, not_or, Bool.not_eq_false, Bool.not_eq_false, not_lt] at hcon
    obtain ⟨hinterrupted, hclean, hne, hfit⟩ := hcon
    obtain ⟨hquiet, -⟩ := (hsame (content reader)).mpr ⟨hclean, rfl, hne, hfit⟩
    rw [quiet_eq, hinterrupted, Bool.not_true, Bool.and_false] at hquiet
    cases hquiet
  · intro hcase bytes
    apply and_congr_left
    intro h
    obtain ⟨rfl, hne, hfit⟩ := h
    rcases hcase with hinterrupted | hclean | hempty | hlong
    · rw [quiet_eq, hinterrupted, Bool.not_false, Bool.and_true]
    · rw [quiet_eq, hclean, Bool.false_and]
    · exact absurd hempty hne
    · omega

/-- Both readers return a stream of one byte. -/
theorem oneByte_sameBytes : SameBytes [.data 0x76 []] 1024 :=
  (sameBytes_iff [.data 0x76 []] (by decide)).mpr (Or.inl rfl)

/-- The same byte after an interruption is lost to the loop. -/
theorem interruptedByte_disagrees : ¬ SameBytes [.interrupted, .data 0x76 []] 1024 := by
  intro hsame
  have hfile : (EncryptedFileProvider.readBounded [.interrupted, .data 0x76 []] 1024).1 =
      .ok [0x76] :=
    (encryptedFile_readBounded_iff (by decide)).mpr ⟨rfl, rfl, by decide, by decide⟩
  obtain ⟨hquiet, -⟩ := command_readBounded_iff.mp ((hsame [0x76]).mpr hfile)
  cases hquiet

end LensoSecrets.ReaderAgreement
