import LensoSecrets.StandardLibrary

/-!
# Checks on references, source names and variable names

The four Providers each carry their own copies of these checks. What copies share
is stated here once, with the limits as parameters; the Providers' own functions
are these applied to their own constants, and the Environment Provider keeps its
different bodies.
-/
namespace LensoSecrets.ReferenceSyntax
open StandardLibrary

/-- `valid_reference` of the Keychain, encrypted-file and command Providers. -/
def validPathReference (maxReferenceLength : ℕ) (reference : String) : Bool :=
  !reference.isEmpty
    && len reference ≤ maxReferenceLength
    && !startsWith reference '/'
    && !endsWith reference '/'
    && !contains reference "//"
    && !containsChar reference nul
    && (split reference '/').all (fun segment => segment != "." && segment != "..")

/-- The byte test of the Environment Provider: ASCII letters, digits and four more. -/
def portableByte (byte : UInt8) : Bool :=
  isAsciiAlphanumeric byte || byte == 0x2E || byte == 0x5F || byte == 0x2D || byte == 0x2F

/-- `valid_reference` of the Environment Provider: no NUL check, but portable bytes only. -/
def validPortableReference (maxReferenceLength : ℕ) (reference : String) : Bool :=
  !reference.isEmpty
    && len reference ≤ maxReferenceLength
    && !startsWith reference '/'
    && !endsWith reference '/'
    && !contains reference "//"
    && (split reference '/').all (fun segment => segment != "." && segment != "..")
    && (bytes reference).all portableByte

/-- `valid_source_name` -/
def validSourceName (maxSourceLength : ℕ) (value : String) : Bool :=
  !(trim value).isEmpty && len value ≤ maxSourceLength && !containsChar value nul

/-- `valid_environment_variable` of the encrypted-file and command Providers. -/
def validUppercaseVariable (value : String) : Bool :=
  match bytes value with
  | [] => false
  | first :: rest =>
    (isAsciiUppercase first || first == 0x5F) &&
      rest.all (fun byte => isAsciiUppercase byte || isAsciiDigit byte || byte == 0x5F)

/-- `valid_environment_variable` of the Environment Provider. -/
def validPortableVariable (name : String) : Bool :=
  match bytes name with
  | [] => false
  | first :: rest =>
    (isAsciiAlphabetic first || first == 0x5F) &&
      rest.all (fun byte => isAsciiAlphanumeric byte || byte == 0x5F)

/-- The bytes the Environment Provider's references are made of. -/
def portableBytes (reference : String) : Bool := (bytes reference).all portableByte

theorem not_containsChar_of_portableBytes {reference : String}
    (h : portableBytes reference = true) : containsChar reference nul = false := by
  by_contra hc
  have hb := List.all_eq_true.mp h 0 (nul_mem_bytes (by simpa using hc))
  exact absurd hb (by decide)

/-- A portable reference is a path reference of portable bytes. -/
theorem validPortableReference_eq (n : ℕ) (reference : String) :
    validPortableReference n reference =
      (validPathReference n reference && portableBytes reference) := by
  cases hp : portableBytes reference with
  | false => simp [validPortableReference, portableBytes] at hp ⊢; grind
  | true =>
    have hc := not_containsChar_of_portableBytes hp
    simp only [portableBytes] at hp
    simp only [validPortableReference, validPathReference, hp, hc, Bool.not_false, Bool.and_true]

end LensoSecrets.ReferenceSyntax
