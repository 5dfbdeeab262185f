import QuantaDb.Engine.Expression
import QuantaDb.Lib.LittleEndian

/-!
# QuantaDb.Engine.Codec

Values as bytes of keys, and the keys of the relational engine (`codec.rs`).

`encodeIdentity` gives a value the bytes under which keys compare it.  They are
the same for values that SQL takes for equal, except for the two zeros
(`identity_agrees_iff`).
-/

namespace QuantaDb.Engine

open LittleEndian

/-! ## identities -/

/-- `to_be_bytes` of a `u64`. -/
def be64 (x : UInt64) : Bytes := encodeBig 8 x.toNat

/-- `to_be_bytes` of a `u32`. -/
def be32 (n : Nat) : Bytes := encodeBig 4 n

theorem be64_inj {x y : UInt64} : be64 x = be64 y ↔ x = y := by
  rw [be64, be64, encodeBig_inj x.toNat_lt y.toNat_lt, UInt64.toNat_inj]

theorem be32_inj {m n : Nat} (hm : m < 2 ^ 32) (hn : n < 2 ^ 32) : be32 m = be32 n ↔ m = n :=
  encodeBig_inj hm hn

@[simp] theorem length_be64 (x : UInt64) : (be64 x).length = 8 := length_encodeBig _ _

@[simp] theorem length_be32 (n : Nat) : (be32 n).length = 4 := length_encodeBig _ _

def signBit : UInt64 := 0x8000000000000000

/-- The bits of a float in an order that is the one of the numbers. -/
def orderedBits (x : Binary64) : UInt64 := if x.negative then ~~~x.bits else x.bits ^^^ signBit

/-- The identity of a value that has one. -/
def identity : Value → Bytes
  | .null => []
  | .boolean value => [1, if value then 1 else 0]
  | .integer value => 2 :: be64 (value.toUInt64 ^^^ signBit)
  | .float value => 3 :: be64 (orderedBits value)
  | .text value => 4 :: utf8 value

/-- `encode_identity`. -/
def encodeIdentity (value : Value) : Except EngineError Bytes :=
  if value.isNull then .error (.constraintViolation "primary key cannot be NULL")
  else if value.isNonFinite then
    .error (.invalidRow "primary key cannot be a non-finite float")
  else .ok (identity value)

theorem negative_eq_msb (x : Binary64) : x.negative = x.bits.toBitVec.msb := by
  rw [Binary64.negative, BitVec.msb_eq_decide]
  rfl

theorem orderedBits_inj {x y : Binary64} : orderedBits x = orderedBits y ↔ x = y := by
  refine ⟨fun h => ?_, congrArg _⟩
  -- the first bit of the ordered bits is the sign turned round
  have hmsb : ∀ z : Binary64, (orderedBits z).toBitVec.msb = !z.negative := by
    intro z
    have hz := negative_eq_msb z
    have hsign : signBit.toBitVec.msb = true := by decide
    unfold orderedBits
    cases hneg : z.negative with
    | true => simp [← hz, hneg]
    | false => simp [← hz, hneg, hsign]
  have hneg : x.negative = y.negative := by
    have := hmsb x
    rw [h, hmsb y] at this
    simpa using this.symm
  have hbits : x.bits = y.bits := by
    unfold orderedBits at h
    rw [hneg] at h
    split at h
    · simpa using congrArg (~~~ ·) h
    · simpa using congrArg (· ^^^ signBit) h
  cases x
  cases y
  rw [Binary64.mk.injEq]
  exact hbits

theorem integer_identity_inj {m n : Int64} :
    m.toUInt64 ^^^ signBit = n.toUInt64 ^^^ signBit ↔ m = n := by
  rw [UInt64.xor_left_inj]
  refine ⟨fun h => ?_, congrArg _⟩
  cases m
  cases n
  exact congrArg _ h

/-- Two values of one type. -/
def Value.sameType : Value → Value → Bool
  | .null, .null => true
  | .boolean _, .boolean _ => true
  | .integer _, .integer _ => true
  | .float _, .float _ => true
  | .text _, .text _ => true
  | _, _ => false

/-- **Identities are injective**, also across types. -/
theorem identity_inj {v w : Value} : identity v = identity w ↔ v = w := by
  refine ⟨fun h => ?_, congrArg _⟩
  cases v with
  | null => cases w <;> simp_all [identity]
  | boolean v =>
    cases w with
    | boolean w => cases v <;> cases w <;> simp_all [identity]
    | _ => simp_all [identity]
  | integer v =>
    cases w with
    | integer w =>
      rw [identity, identity, List.cons.injEq, be64_inj, integer_identity_inj] at h
      rw [h.2]
    | _ => simp_all [identity]
  | float v =>
    cases w with
    | float w =>
      rw [identity, identity, List.cons.injEq, be64_inj, orderedBits_inj] at h
      rw [h.2]
    | _ => simp_all [identity]
  | text v =>
    cases w with
    | text w =>
      rw [identity, identity, List.cons.injEq, utf8_inj] at h
      rw [h.2]
    | _ => simp_all [identity]

/-- `left = right` evaluates to true. -/
def SqlEqual (ops : FloatOps) (left right : Value) : Prop :=
  Expression.compare ops .equal left right = .ok (.boolean true)

/-- The two zeros. -/
def OppositeZeros : Value → Value → Prop
  | .float x, .float y => x.isZero = true ∧ y.isZero = true ∧ x ≠ y
  | _, _ => False

/-- Equality in SQL on values of one type. -/
theorem sqlEqual_iff (ops : FloatOps) {v w : Value} (hv : v.isNull = false)
    (hfinite : v.isNonFinite = false) (hfinite' : w.isNonFinite = false)
    (htype : v.sameType w = true) : SqlEqual ops v w ↔ v = w ∨ OppositeZeros v w := by
  unfold SqlEqual Expression.compare
  cases v with
  | null => cases hv
  | boolean v =>
    cases w with
    | boolean w => cases v <;> cases w <;> simp [Expression.ordering, Expression.holds,
      OppositeZeros]
    | _ => cases htype
  | integer v =>
    cases w with
    | integer w =>
      simp [Expression.ordering, Expression.holds, OppositeZeros, Ordering.isEq_iff_eq_eq,
        Int64.toInt_inj]
    | _ => cases htype
  | float v =>
    cases w with
    | float w =>
      simp only [Value.isNonFinite, Bool.not_eq_false'] at hfinite hfinite'
      simp [Expression.ordering, Expression.holds, OppositeZeros, Binary64.partialCmp,
        Binary64.isNaN_of_isFinite hfinite, Binary64.isNaN_of_isFinite hfinite',
        Ordering.isEq_iff_eq_eq, Binary64.scaled_inj]
      tauto
    | _ => cases htype
  | text v =>
    cases w with
    | text w =>
      simp [Expression.ordering, Expression.holds, OppositeZeros, Ordering.isEq_iff_eq_eq,
        utf8_inj]
    | _ => cases htype

/-- `==` of the engine on values of one type. -/
theorem eq_iff {v w : Value} (hfinite : v.isNonFinite = false) (hfinite' : w.isNonFinite = false) :
    v.eq w = true ↔ v = w ∨ OppositeZeros v w := by
  cases v with
  | float v =>
    cases w with
    | float w =>
      simp only [Value.isNonFinite, Bool.not_eq_false'] at hfinite hfinite'
      rw [Value.eq, Binary64.eq_iff hfinite hfinite', OppositeZeros, Value.float.injEq]
      tauto
    | _ => simp [Value.eq, OppositeZeros]
  | _ => cases w <;> simp [Value.eq, OppositeZeros]

/-- What a column accepts has an identity. -/
theorem encodeIdentity_of_validate {column : ColumnSchema} {v : Value} (hv : v.isNull = false)
    (hok : column.validate v = .ok ()) : encodeIdentity v = .ok (identity v) := by
  rcases ColumnSchema.validate_ok.mp hok with ⟨hnull, -⟩ | ⟨-, -, -, hfinite⟩
  · rw [hv] at hnull
    cases hnull
  · rw [encodeIdentity, hv, hfinite]
    rfl

theorem isNonFinite_of_validate {column : ColumnSchema} {v : Value}
    (hok : column.validate v = .ok ()) : v.isNonFinite = false := by
  rcases ColumnSchema.validate_ok.mp hok with ⟨hnull, -⟩ | ⟨-, -, -, hfinite⟩
  · cases v with
    | null => rfl
    | _ => cases hnull
  · exact hfinite

/-- **Identity and equality.**  For two values of one type that a column accepts, the
bytes in keys, `=` in SQL and `==` in the engine agree, unless they are the two zeros. -/
theorem identity_agrees_iff (ops : FloatOps) (column : ColumnSchema) (v w : Value)
    (hv : v.isNull = false) (hw : w.isNull = false) (hokv : column.validate v = .ok ())
    (hokw : column.validate w = .ok ()) (htype : v.sameType w = true) :
    ((encodeIdentity v = encodeIdentity w ↔ SqlEqual ops v w) ∧
      (SqlEqual ops v w ↔ v.eq w = true)) ↔ ¬OppositeZeros v w := by
  have hfv := isNonFinite_of_validate hokv
  have hfw := isNonFinite_of_validate hokw
  rw [encodeIdentity_of_validate hv hokv, encodeIdentity_of_validate hw hokw, Except.ok.injEq,
    identity_inj, sqlEqual_iff ops hv hfv hfw htype, eq_iff hfv hfw]
  -- opposite zeros are equal in SQL and differ as values
  have hne : OppositeZeros v w → v ≠ w := by
    rintro hzeros rfl
    cases v with
    | float v => exact hzeros.2.2 rfl
    | _ => exact hzeros
  tauto

/-- A unique column of floats. -/
def floatColumn : ColumnSchema where
  name := "x"
  dataType := .float64
  nullable := false
  primaryKey := false
  unique := true

/-- The zeros: equal for `=` and `==`, with different bytes. -/
theorem zeros_identities_differ :
    ∃ v w : Value, v = .float ⟨0⟩ ∧ w = .float ⟨0x8000000000000000⟩ ∧
      floatColumn.validate v = .ok () ∧ floatColumn.validate w = .ok () ∧ v.sameType w = true ∧
      encodeIdentity v ≠ encodeIdentity w ∧ v.eq w = true ∧ ∀ ops, SqlEqual ops v w := by
  refine ⟨_, _, rfl, rfl, by decide +kernel, by decide +kernel, rfl, by decide +kernel,
    by decide +kernel, fun ops => ?_⟩
  exact (sqlEqual_iff ops rfl (by decide +kernel) (by decide +kernel) rfl).mpr
    (.inr ⟨by decide +kernel, by decide +kernel, by decide +kernel⟩)

theorem identity_agrees_iff_one_two :
    floatColumn.validate (.float ⟨0x3ff0000000000000⟩) = .ok () ∧
      ∀ ops, ((encodeIdentity (.float ⟨0x3ff0000000000000⟩) =
          encodeIdentity (.float ⟨0x4000000000000000⟩) ↔
          SqlEqual ops (.float ⟨0x3ff0000000000000⟩) (.float ⟨0x4000000000000000⟩)) ∧
        (SqlEqual ops (.float ⟨0x3ff0000000000000⟩) (.float ⟨0x4000000000000000⟩) ↔
          Value.eq (.float ⟨0x3ff0000000000000⟩) (.float ⟨0x4000000000000000⟩) = true)) := by
  refine ⟨by decide +kernel, fun ops => ?_⟩
  refine (identity_agrees_iff ops floatColumn _ _ rfl rfl (by decide +kernel) (by decide +kernel)
    rfl).mpr ?_
  rintro ⟨hzero, -⟩
  exact absurd hzero (by decide +kernel)

end QuantaDb.Engine
