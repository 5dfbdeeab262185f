import Mathlib

/-!
# QuantaDb.Lib.Utf8

The bytes of a text: which of them can begin a character, and that no character is cut
by going from an ASCII byte to the next byte.
-/

namespace Utf8

/-- A byte inside a character. -/
def isContinuation (byte : UInt8) : Bool := 128 ≤ byte.toNat && byte.toNat < 192

/-- A position between characters, given by the bytes behind it. -/
def boundary : List UInt8 → Bool
  | [] => true
  | byte :: _ => !isContinuation byte

/-- No character is continued behind an ASCII byte. -/
abbrev Whole (bytes : List UInt8) : Prop :=
  bytes.IsChain fun byte next => byte.toNat < 128 → isContinuation next = false

theorem begins {n : Nat} (h : n < 128 ∨ 192 ≤ n) (hlt : n < 256) :
    isContinuation (UInt8.ofNat n) = false := by
  rw [isContinuation, UInt8.toNat_ofNat_of_lt' hlt]
  simp
  omega

theorem large {n : Nat} (h : 128 ≤ n) (hlt : n < 256) : 128 ≤ (UInt8.ofNat n).toNat := by
  rwa [UInt8.toNat_ofNat_of_lt' hlt]

/-- The bytes of a character: the first begins it, and an ASCII byte stands alone. -/
theorem utf8EncodeChar_spec (c : Char) :
    ∃ first rest, String.utf8EncodeChar c = first :: rest ∧ isContinuation first = false ∧
      (rest ≠ [] → 128 ≤ first.toNat) ∧ ∀ byte ∈ rest, 128 ≤ byte.toNat := by
  unfold String.utf8EncodeChar
  generalize c.val.toNat = v
  simp only
  split
  · exact ⟨_, _, rfl, begins (by omega) (by omega), by simp, by simp⟩
  · split
    · refine ⟨_, _, rfl, begins (by omega) (by omega), fun _ => large (by omega) (by omega), ?_⟩
      simpa using large (by omega) (by omega)
    · split
      all_goals
        refine ⟨_, _, rfl, begins (by omega) (by omega), fun _ => large (by omega) (by omega), ?_⟩
        simp only [List.mem_cons, List.not_mem_nil, or_false, forall_eq_or_imp, forall_eq]
      · exact ⟨large (by omega) (by omega), large (by omega) (by omega)⟩
      · exact ⟨large (by omega) (by omega), large (by omega) (by omega),
          large (by omega) (by omega)⟩

/-- Bytes that are not ASCII, in front of a text. -/
theorem whole_append {front bytes : List UInt8} (hfront : ∀ byte ∈ front, 128 ≤ byte.toNat)
    (h : Whole bytes) : Whole (front ++ bytes) := by
  induction front with
  | nil => exact h
  | cons byte front ih =>
    rw [List.forall_mem_cons] at hfront
    exact List.isChain_cons.mpr ⟨fun next _ hlt => absurd hfront.1 (by omega), ih hfront.2⟩

/-- The characters of a text are whole, and it begins with one. -/
theorem whole_encode (cs : List Char) :
    Whole (cs.flatMap String.utf8EncodeChar) ∧
    boundary (cs.flatMap String.utf8EncodeChar) = true := by
  induction cs with
  | nil => exact ⟨.nil, rfl⟩
  | cons c cs ih =>
    obtain ⟨first, rest, hc, hfirst, hascii, hrest⟩ := utf8EncodeChar_spec c
    rw [List.flatMap_cons, hc, List.cons_append]
    refine ⟨?_, by simp [boundary, hfirst]⟩
    refine List.isChain_cons.mpr ⟨?_, whole_append hrest ih.1⟩
    intro next hnext hlt
    cases rest with
    | cons byte rest => exact absurd (hascii (by simp)) (by omega)
    | nil =>
      cases hbytes : cs.flatMap String.utf8EncodeChar with
      | nil => simp [hbytes] at hnext
      | cons byte bytes =>
        have hboundary := ih.2
        rw [hbytes] at hnext hboundary
        cases hnext
        simpa [boundary] using hboundary

/-- Behind an ASCII byte a text can be cut. -/
theorem Whole.boundary {byte : UInt8} {bytes : List UInt8} (h : Whole (byte :: bytes))
    (hbyte : byte.toNat < 128) : boundary bytes = true := by
  cases bytes with
  | nil => rfl
  | cons next bytes => simp [Utf8.boundary, (List.isChain_cons_cons.mp h).1 hbyte]

theorem Whole.suffix {bytes rest : List UInt8} (h : Whole bytes) (hrest : rest <:+ bytes) :
    Whole rest := List.IsChain.suffix h hrest

end Utf8
