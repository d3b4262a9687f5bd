import Mathlib.Data.List.Infix
import Mathlib.Data.String.Basic

/-!
# The standard library's strings and machine integers

Operations on UTF-8 strings under their usual names. Lengths and byte tests are
about the UTF-8 encoding; prefixes, suffixes and segments are about characters.
Machine integers are 64 bits wide.
-/
namespace LensoSecrets.StandardLibrary

/-- A string of the operating system: any bytes. -/
abbrev OsString := List UInt8

def bytes (s : String) : List UInt8 := s.toByteArray.data.toList

/-- `String::from_utf8` -/
def fromUtf8 (bs : List UInt8) : Option String := String.fromUTF8? ⟨bs.toArray⟩

def nul : Char := Char.ofNat 0

def len (s : String) : ℕ := s.utf8ByteSize
def startsWith (s : String) (c : Char) : Bool := s.toList.head? == some c
def endsWith (s : String) (c : Char) : Bool := s.toList.getLast? == some c
def containsChar (s : String) (c : Char) : Bool := s.toList.contains c
def contains (s pattern : String) : Bool := decide (pattern.toList <:+: s.toList)
def split (s : String) (separator : Char) : List String :=
  (s.toList.splitOn separator).map String.ofList

/-- Drop the last character. -/
def pop (s : String) : String := String.ofList s.toList.dropLast

/-- The Unicode property `White_Space`. -/
def isWhitespace (c : Char) : Bool :=
  let v := c.toNat
  (9 ≤ v && v ≤ 13) || v == 0x20 || v == 0x85 || v == 0xA0 || v == 0x1680 ||
    (0x2000 ≤ v && v ≤ 0x200A) || v == 0x2028 || v == 0x2029 || v == 0x202F || v == 0x205F ||
    v == 0x3000

def trim (s : String) : String :=
  String.ofList ((s.toList.dropWhile isWhitespace).reverse.dropWhile isWhitespace).reverse

def isAsciiUppercase (b : UInt8) : Bool := 0x41 ≤ b && b ≤ 0x5A
def isAsciiDigit (b : UInt8) : Bool := 0x30 ≤ b && b ≤ 0x39
def isAsciiAlphabetic (b : UInt8) : Bool := isAsciiUppercase b || (0x61 ≤ b && b ≤ 0x7A)
def isAsciiAlphanumeric (b : UInt8) : Bool := isAsciiAlphabetic b || isAsciiDigit b

/-- `checked_add` of `u64` and `usize` -/
def checkedAdd (a b : ℕ) : Option ℕ := if a + b < 2 ^ 64 then some (a + b) else none

/-- `(1..=maximum).contains(&limit)` -/
def withinLimit (limit maximum : ℕ) : Bool := 1 ≤ limit && limit ≤ maximum

theorem withinLimit_iff {limit maximum : ℕ} :
    withinLimit limit maximum = true ↔ 1 ≤ limit ∧ limit ≤ maximum := by
  rw [withinLimit, Bool.and_eq_true, decide_eq_true_iff, decide_eq_true_iff]

/-- The bytes of a string are the encodings of its characters. -/
theorem bytes_eq_flatMap (s : String) : bytes s = s.toList.flatMap String.utf8EncodeChar := by
  rw [bytes, ← String.utf8Encode_toList, List.utf8Encode]
  simp

theorem fromUtf8_eq_some {bs : List UInt8} {s : String} : fromUtf8 bs = some s ↔ bytes s = bs := by
  unfold fromUtf8 bytes String.fromUTF8?
  split
  · rw [Option.some.injEq]
    constructor <;> rintro rfl <;> simp [String.fromUTF8]
  · rename_i h
    refine ⟨fun h => by simp at h, ?_⟩
    rintro rfl
    exact absurd (by simpa using s.isValidUTF8) h

@[simp] theorem fromUtf8_bytes (s : String) : fromUtf8 (bytes s) = some s :=
  fromUtf8_eq_some.mpr rfl

theorem fromUtf8_eq_empty {bs : List UInt8} : fromUtf8 bs = some "" ↔ bs = [] := by
  rw [fromUtf8_eq_some, eq_comm]
  rfl

/-- A NUL character is encoded as a NUL byte. -/
theorem nul_mem_bytes {s : String} (h : containsChar s nul = true) : 0 ∈ bytes s := by
  rw [bytes_eq_flatMap, List.mem_flatMap]
  exact ⟨nul, by simpa [containsChar] using h, by decide⟩

/-- An ASCII character is its own encoding, and any other needs a larger byte. -/
theorem utf8EncodeChar_cases (c : Char) :
    (c.toNat < 0x80 ∧ String.utf8EncodeChar c = [UInt8.ofNat c.toNat]) ∨
      (0x80 ≤ c.toNat ∧ ∃ b ∈ String.utf8EncodeChar c, 0x80 ≤ b.toNat) := by
  have hlarge : ∀ n, n < 0x40 → 0x80 ≤ (UInt8.ofNat (n + 0x80)).toNat := by
    intro n hn
    rw [UInt8.toNat_ofNat']
    omega
  have hv : c.toNat = c.val.toNat := rfl
  have hlast := hlarge (c.val.toNat % 64) (Nat.mod_lt _ (by decide))
  rw [hv]
  unfold String.utf8EncodeChar
  dsimp only
  split_ifs
  · exact Or.inl ⟨by omega, rfl⟩
  · exact Or.inr ⟨by omega, _, by simp, hlast⟩
  · exact Or.inr ⟨by omega, _, by simp, hlast⟩
  · exact Or.inr ⟨by omega, _, by simp, hlast⟩

theorem endsWith_eq_true {s : String} {c : Char} :
    endsWith s c = true ↔ ∃ v : String, s = v.push c := by
  rw [endsWith, beq_iff_eq, List.getLast?_eq_some_iff]
  constructor
  · intro h
    obtain ⟨cs, hs⟩ := h
    refine ⟨String.ofList cs, String.toList_inj.mp ?_⟩
    rw [hs, String.toList_push, String.toList_ofList]
  · intro h
    obtain ⟨v, rfl⟩ := h
    exact ⟨v.toList, String.toList_push c⟩

@[simp] theorem endsWith_push (v : String) (c : Char) : endsWith (v.push c) c = true :=
  endsWith_eq_true.mpr ⟨v, rfl⟩

@[simp] theorem pop_push (v : String) (c : Char) : pop (v.push c) = v := by
  rw [pop, String.toList_push, List.dropLast_concat, String.ofList_toList]

end LensoSecrets.StandardLibrary
