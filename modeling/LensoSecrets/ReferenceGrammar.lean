import LensoSecrets.CommandProvider
import LensoSecrets.EncryptedFileProvider
import LensoSecrets.EnvironmentProvider
import LensoSecrets.KeychainProvider
import LensoSecrets.SeparatedLists

/-!
# The grammar of references

A reference is a path: segments joined with `/`. The checks of the four Providers never
take a reference apart, but together they accept exactly the paths of proper segments.
-/
namespace LensoSecrets.ReferenceGrammar
open ReferenceSyntax SeparatedLists StandardLibrary

/-- A segment of any characters but `/` and NUL that is not empty and not a dot segment. -/
structure PathSegment (segment : String) : Prop where
  nonempty : segment ≠ ""
  noSlash : containsChar segment '/' = false
  noNul : containsChar segment nul = false
  notDot : segment ≠ "."
  notDots : segment ≠ ".."

/-- An ASCII letter or digit, or one of `.`, `_` and `-`. -/
def portableChar (c : Char) : Bool := c.isAlphanum || c == '.' || c == '_' || c == '-'

/-- A segment of portable characters that is not empty and not a dot segment. -/
structure PortableSegment (segment : String) : Prop where
  nonempty : segment ≠ ""
  portable : ∀ c ∈ segment.toList, portableChar c = true
  notDot : segment ≠ "."
  notDots : segment ≠ ".."

/-- Proper segments whose join with `/` is the reference. -/
structure Segments (Proper : String → Prop) (segments : List String) (reference : String) :
    Prop where
  nonempty : segments ≠ []
  proper : ∀ segment ∈ segments, Proper segment
  join : "/".intercalate segments = reference

theorem forall_mem_split {reference : String} {P : String → Prop} :
    (∀ segment ∈ split reference '/', P segment) ↔
      ∀ piece ∈ reference.toList.splitOn '/', P (String.ofList piece) :=
  List.forall_mem_map

/-- Segments without `/` are those that `split` returns for their join. -/
theorem eq_split_iff {reference : String} {segments : List String} :
    segments = split reference '/' ↔
      segments ≠ [] ∧ (∀ segment ∈ segments, containsChar segment '/' = false) ∧
        "/".intercalate segments = reference := by
  have hlist : segments = split reference '/' ↔
      segments.map String.toList = reference.toList.splitOn '/' := by
    unfold split
    constructor
    · rintro rfl
      simp [Function.comp_def]
    · intro h
      rw [← h]
      simp [Function.comp_def]
  have hjoin : "/".intercalate segments = reference ↔
      ['/'].intercalate (segments.map String.toList) = reference.toList := by
    rw [← String.toList_inj, String.toList_intercalate]
    rfl
  have hfree : (∀ segment ∈ segments, containsChar segment '/' = false) ↔
      ∀ piece ∈ segments.map String.toList, '/' ∉ piece := by
    simp [containsChar]
  rw [hlist, eq_splitOn_iff, ne_eq, List.map_eq_nil_iff, hfree, hjoin]

/-- Proper segments are found by `split` if no proper segment contains a `/`. -/
theorem segments_iff {Proper : String → Prop} {segments : List String} {reference : String}
    (hproper : ∀ segment, Proper segment → containsChar segment '/' = false) :
    Segments Proper segments reference ↔
      segments = split reference '/' ∧ ∀ segment ∈ split reference '/', Proper segment := by
  constructor
  · intro h
    have hfree : ∀ segment ∈ segments, containsChar segment '/' = false :=
      fun segment hsegment => hproper segment (h.proper segment hsegment)
    have hsplit : segments = split reference '/' :=
      eq_split_iff.mpr ⟨h.nonempty, hfree, h.join⟩
    rw [← hsplit]
    exact ⟨rfl, h.proper⟩
  · intro h
    obtain ⟨rfl, hall⟩ := h
    obtain ⟨hne, -, hjoin⟩ := eq_split_iff.mp (rfl : split reference '/' = _)
    exact ⟨hne, hall, hjoin⟩

/-- The four tests on slashes together say that no segment is empty. -/
theorem segments_nonempty_iff {reference : String} :
    (∀ segment ∈ split reference '/', segment ≠ "") ↔ reference.isEmpty = false ∧
      startsWith reference '/' = false ∧ endsWith reference '/' = false ∧
      contains reference "//" = false := by
  have hsegment : ∀ piece : List Char, String.ofList piece ≠ "" ↔ piece ≠ [] := by
    intro piece
    rw [ne_eq, ne_eq, ← String.toList_inj, String.toList_ofList]
    rfl
  have hempty : reference.isEmpty = false ↔ reference.toList ≠ [] := by
    rw [← Bool.not_eq_true, String.isEmpty_iff, ← String.toList_inj]
    rfl
  rw [forall_mem_split]
  simp only [hsegment]
  rw [pieces_nonempty_iff, hempty, startsWith, endsWith, contains, beq_eq_false_iff_ne,
    beq_eq_false_iff_ne, decide_eq_false_iff_not]
  rfl

theorem noNul_iff {reference : String} : containsChar reference nul = false ↔
    ∀ segment ∈ split reference '/', containsChar segment nul = false := by
  have hchar : ∀ s : String, containsChar s nul = false ↔ ∀ c ∈ s.toList, c ≠ nul := by
    intro s
    rw [containsChar, ← Bool.not_eq_true, List.contains_iff_mem]
    exact ⟨fun h c hc hnul => h (hnul ▸ hc), fun h hc => h nul hc rfl⟩
  have hslash : ∀ c : Char, c ≠ nul ↔ c = '/' ∨ c ≠ nul := by
    intro c
    constructor
    · exact Or.inr
    · rintro (rfl | h)
      · decide
      · exact h
  rw [hchar, forall_mem_split]
  simp only [hchar, String.toList_ofList]
  rw [← forall_mem_iff_forall_piece]
  exact forall₂_congr fun c _ => hslash c

theorem noSlash_of_mem_split {reference segment : String} (h : segment ∈ split reference '/') :
    containsChar segment '/' = false := by
  obtain ⟨-, hfree, -⟩ := eq_split_iff.mp (rfl : split reference '/' = _)
  exact hfree segment h

theorem validPathReference_iff (maxReferenceLength : ℕ) (reference : String) :
    validPathReference maxReferenceLength reference = true ↔ len reference ≤ maxReferenceLength ∧
      ∀ segment ∈ split reference '/', PathSegment segment := by
  have hnonempty := @segments_nonempty_iff reference
  have hnul := @noNul_iff reference
  simp only [validPathReference, Bool.and_eq_true, Bool.not_eq_true', decide_eq_true_iff,
    List.all_eq_true, bne_iff_ne]
  constructor
  · intro h
    obtain ⟨⟨⟨⟨⟨⟨hempty, hlen⟩, hstart⟩, hend⟩, hdouble⟩, hnoNul⟩, hdots⟩ := h
    have hne := hnonempty.mpr ⟨hempty, hstart, hend, hdouble⟩
    refine ⟨hlen, ?_⟩
    intro segment hsegment
    obtain ⟨hdot, hdots⟩ := hdots segment hsegment
    exact ⟨hne segment hsegment, noSlash_of_mem_split hsegment, hnul.mp hnoNul segment hsegment,
      hdot, hdots⟩
  · intro h
    obtain ⟨hlen, hall⟩ := h
    obtain ⟨hempty, hstart, hend, hdouble⟩ :=
      hnonempty.mp fun segment hsegment => (hall segment hsegment).nonempty
    have hnoNul := hnul.mpr fun segment hsegment => (hall segment hsegment).noNul
    refine ⟨⟨⟨⟨⟨⟨hempty, hlen⟩, hstart⟩, hend⟩, hdouble⟩, hnoNul⟩, ?_⟩
    intro segment hsegment
    exact ⟨(hall segment hsegment).notDot, (hall segment hsegment).notDots⟩

theorem portableChar_iff {c : Char} : portableChar c = true ↔
    (0x30 ≤ c.toNat ∧ c.toNat ≤ 0x39) ∨ (0x41 ≤ c.toNat ∧ c.toNat ≤ 0x5A) ∨
      (0x61 ≤ c.toNat ∧ c.toNat ≤ 0x7A) ∨ c.toNat = 0x2D ∨ c.toNat = 0x2E ∨ c.toNat = 0x5F := by
  have heq : ∀ d : Char, (c == d) = true ↔ c.toNat = d.toNat := by
    intro d
    rw [beq_iff_eq, Char.toNat_inj]
  have hval : c.val.toNat = c.toNat := rfl
  have hletters : 'A'.val.toNat = 0x41 ∧ 'Z'.val.toNat = 0x5A ∧ 'a'.val.toNat = 0x61 ∧
      'z'.val.toNat = 0x7A := by decide
  have hothers : '0'.val.toNat = 0x30 ∧ '9'.val.toNat = 0x39 ∧ '.'.toNat = 0x2E ∧
      '_'.toNat = 0x5F ∧ '-'.toNat = 0x2D := by decide
  have hrange : ∀ a b : Char, (decide (a.val ≤ c.val) && decide (c.val ≤ b.val)) = true ↔
      a.val.toNat ≤ c.val.toNat ∧ c.val.toNat ≤ b.val.toNat := by
    intro a b
    rw [Bool.and_eq_true, decide_eq_true_iff, decide_eq_true_iff, UInt32.le_iff_toNat_le,
      UInt32.le_iff_toNat_le]
  have hupper : c.isUpper = true ↔ 'A'.val.toNat ≤ c.val.toNat ∧ c.val.toNat ≤ 'Z'.val.toNat :=
    decide_eq_true_iff.trans (and_congr UInt32.le_iff_toNat_le UInt32.le_iff_toNat_le)
  have hlower : c.isLower = true ↔ _ := hrange 'a' 'z'
  have hdigit : c.isDigit = true ↔ _ := hrange '0' '9'
  have hchar : portableChar c = (((c.isUpper || c.isLower) || c.isDigit) ||
      c == '.' || c == '_' || c == '-') := rfl
  rw [hchar]
  simp only [Bool.or_eq_true, hupper, hlower, hdigit, heq]
  omega

theorem portableByte_iff {byte : UInt8} : portableByte byte = true ↔
    (0x30 ≤ byte.toNat ∧ byte.toNat ≤ 0x39) ∨ (0x41 ≤ byte.toNat ∧ byte.toNat ≤ 0x5A) ∨
      (0x61 ≤ byte.toNat ∧ byte.toNat ≤ 0x7A) ∨ byte.toNat = 0x2D ∨ byte.toNat = 0x2E ∨
      byte.toNat = 0x5F ∨ byte.toNat = 0x2F := by
  have hletters : (0x41 : UInt8).toNat = 0x41 ∧ (0x5A : UInt8).toNat = 0x5A ∧
      (0x61 : UInt8).toNat = 0x61 ∧ (0x7A : UInt8).toNat = 0x7A := by decide
  have hothers : (0x30 : UInt8).toNat = 0x30 ∧ (0x39 : UInt8).toNat = 0x39 ∧
      (0x2E : UInt8).toNat = 0x2E ∧ (0x5F : UInt8).toNat = 0x5F ∧ (0x2D : UInt8).toNat = 0x2D ∧
      (0x2F : UInt8).toNat = 0x2F := by decide
  simp only [portableByte, isAsciiAlphanumeric, isAsciiAlphabetic, isAsciiUppercase,
    isAsciiDigit, Bool.or_eq_true, Bool.and_eq_true, decide_eq_true_iff, beq_iff_eq,
    UInt8.le_iff_toNat_le, ← UInt8.toNat_inj]
  omega

/-- All bytes of a character pass the test only if it is a portable one or a `/`; a byte of
a character that is not ASCII fails it. -/
theorem portable_utf8EncodeChar_iff (c : Char) :
    (∀ byte ∈ String.utf8EncodeChar c, portableByte byte = true) ↔
      c = '/' ∨ portableChar c = true := by
  have hslash : c = '/' ↔ c.toNat = 0x2F := Char.toNat_inj.symm
  rcases utf8EncodeChar_cases c with ⟨hascii, hencode⟩ | ⟨hlarge, byte, hbyte, hhigh⟩
  · have hnat : (UInt8.ofNat c.toNat).toNat = c.toNat := by
      rw [UInt8.toNat_ofNat']
      omega
    rw [hencode, List.forall_mem_singleton, portableByte_iff, portableChar_iff, hnat, hslash]
    omega
  · constructor
    · intro h
      have hportable := portableByte_iff.mp (h byte hbyte)
      omega
    · intro h
      rw [hslash, portableChar_iff] at h
      omega

theorem portableBytes_iff {reference : String} : portableBytes reference = true ↔
    ∀ segment ∈ split reference '/', ∀ c ∈ segment.toList, portableChar c = true := by
  have hbytes : portableBytes reference = (bytes reference).all portableByte := rfl
  rw [hbytes, bytes_eq_flatMap, List.all_flatMap, List.all_eq_true, forall_mem_split]
  simp only [List.all_eq_true, portable_utf8EncodeChar_iff, String.toList_ofList]
  exact forall_mem_iff_forall_piece

/-- A segment of portable characters contains neither `/` nor NUL. -/
theorem portableSegment_iff {segment : String} : PortableSegment segment ↔
    PathSegment segment ∧ ∀ c ∈ segment.toList, portableChar c = true := by
  constructor
  · intro h
    have hfree : ∀ c, portableChar c = false → containsChar segment c = false := by
      intro c hc
      rw [containsChar, ← Bool.not_eq_true, List.contains_iff_mem]
      intro hmem
      rw [h.portable c hmem] at hc
      cases hc
    exact ⟨⟨h.nonempty, hfree '/' (by decide), hfree nul (by decide), h.notDot, h.notDots⟩,
      h.portable⟩
  · intro h
    obtain ⟨hpath, hportable⟩ := h
    exact ⟨hpath.nonempty, hportable, hpath.notDot, hpath.notDots⟩

theorem validPortableReference_iff (maxReferenceLength : ℕ) (reference : String) :
    validPortableReference maxReferenceLength reference = true ↔
      len reference ≤ maxReferenceLength ∧
        ∀ segment ∈ split reference '/', PortableSegment segment := by
  simp only [portableSegment_iff]
  rw [validPortableReference_eq, Bool.and_eq_true, validPathReference_iff, portableBytes_iff,
    forall₂_and, and_assoc]

/-- Exactly the paths of proper segments within the length pass the check; their segments
are unique. A reference that passes does not start with `/`, and none of the segments it is
split into is empty or a dot segment. -/
structure Recognizes (validReference : String → Bool) (Proper : String → Prop) : Prop where
  valid_iff : ∀ reference, validReference reference = true ↔
    len reference ≤ 256 ∧ ∃ segments, Segments Proper segments reference
  unique : ∀ reference segments segments', Segments Proper segments reference →
    Segments Proper segments' reference → segments = segments'
  relative : ∀ reference, validReference reference = true → startsWith reference '/' = false
  noDots : ∀ reference, validReference reference = true →
    ∀ segment ∈ split reference '/', segment ≠ "" ∧ segment ≠ "." ∧ segment ≠ ".."

theorem recognizes_of_split {validReference : String → Bool} {Proper : String → Prop}
    (hvalid : ∀ reference, validReference reference = true ↔
      len reference ≤ 256 ∧ ∀ segment ∈ split reference '/', Proper segment)
    (hproper : ∀ segment, Proper segment → PathSegment segment) :
    Recognizes validReference Proper := by
  have hslash : ∀ segment, Proper segment → containsChar segment '/' = false :=
    fun segment h => (hproper segment h).noSlash
  refine ⟨?_, ?_, ?_, ?_⟩
  · intro reference
    rw [hvalid]
    refine and_congr_right fun _ => ?_
    constructor
    · intro hall
      exact ⟨split reference '/', (segments_iff hslash).mpr ⟨rfl, hall⟩⟩
    · intro h
      obtain ⟨segments, h⟩ := h
      exact ((segments_iff hslash).mp h).2
  · intro reference segments segments' h h'
    rw [((segments_iff hslash).mp h).1, ((segments_iff hslash).mp h').1]
  · intro reference h
    have hall := ((hvalid reference).mp h).2
    have hne : ∀ segment ∈ split reference '/', segment ≠ "" :=
      fun segment hsegment => (hproper segment (hall segment hsegment)).nonempty
    exact (segments_nonempty_iff.mp hne).2.1
  · intro reference h segment hsegment
    have hpath := hproper segment (((hvalid reference).mp h).2 segment hsegment)
    exact ⟨hpath.nonempty, hpath.notDot, hpath.notDots⟩

/-- The Keychain, encrypted-file and command Providers recognize the paths of segments of
any characters but NUL, the Environment Provider those of portable characters. -/
theorem validReference_recognizes :
    Recognizes KeychainProvider.validReference PathSegment ∧
    Recognizes EncryptedFileProvider.validReference PathSegment ∧
    Recognizes CommandProvider.validReference PathSegment ∧
    Recognizes EnvironmentProvider.validReference PortableSegment := by
  refine ⟨?_, ?_, ?_, ?_⟩
  · exact recognizes_of_split (validPathReference_iff 256) fun segment h => h
  · exact recognizes_of_split (validPathReference_iff 256) fun segment h => h
  · exact recognizes_of_split (validPathReference_iff 256) fun segment h => h
  · apply recognizes_of_split (validPortableReference_iff 256)
    intro segment h
    exact (portableSegment_iff.mp h).1

end LensoSecrets.ReferenceGrammar
