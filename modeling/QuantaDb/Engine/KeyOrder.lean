import QuantaDb.Engine.Keyspace

/-!
# QuantaDb.Engine.KeyOrder

The order in which a scan of a table meets its rows.

A row key holds the length of the identity in front of the identity, so keys are
compared by length first (`rowKey_lt`).  Identities of one length have the order
of their values, except for the two zeros; texts of different lengths have the
order of their lengths (`rowKey_order_iff`).
-/

namespace QuantaDb.Engine

open Fallible LittleEndian

/-! ## identities as numbers -/

theorem be64_lt {x y : UInt64} : be64 x < be64 y ↔ x.toNat < y.toNat :=
  encodeBig_lt x.toNat_lt y.toNat_lt

theorem be32_lt {m n : Nat} (hm : m < 2 ^ 32) (hn : n < 2 ^ 32) : be32 m < be32 n ↔ m < n :=
  encodeBig_lt hm hn

/-- Turning the sign bit round swaps the two halves of the numbers. -/
theorem toNat_xor_signBit (x : UInt64) :
    (x ^^^ signBit).toNat = if x.toNat < 2 ^ 63 then x.toNat + 2 ^ 63 else x.toNat - 2 ^ 63 := by
  have hlow : (x ^^^ signBit).toNat % 2 ^ 63 = x.toNat % 2 ^ 63 := by
    rw [UInt64.toNat_xor, Nat.xor_mod_two_pow, show signBit.toNat % 2 ^ 63 = 0 from by decide,
      Nat.xor_zero]
  have hhigh : 2 ^ 63 ≤ (x ^^^ signBit).toNat ↔ ¬2 ^ 63 ≤ x.toNat := by
    have hmsb : (x ^^^ signBit).toBitVec.msb = !x.toBitVec.msb := by
      rw [UInt64.toBitVec_xor, BitVec.msb_xor, show signBit.toBitVec.msb = true from by decide,
        Bool.xor_true]
    rwa [BitVec.msb_eq_decide, BitVec.msb_eq_decide, ← decide_not, decide_eq_decide] at hmsb
  have hx := x.toNat_lt
  have hy := (x ^^^ signBit).toNat_lt
  split <;> omega

/-- Integers in the order of their identities. -/
theorem integer_identity_lt {m n : Int64} :
    (m.toUInt64 ^^^ signBit).toNat < (n.toUInt64 ^^^ signBit).toNat ↔ m.toInt < n.toInt := by
  have htoInt : ∀ k : Int64, k.toInt =
      if k.toUInt64.toNat < 2 ^ 63 then (k.toUInt64.toNat : Int)
      else (k.toUInt64.toNat : Int) - 2 ^ 64 := by
    intro k
    have hcond := k.toBitVec.toInt_eq_toNat_cond
    have hlt : 2 * k.toBitVec.toNat < 2 ^ 64 ↔ k.toUInt64.toNat < 2 ^ 63 := by
      show 2 * k.toUInt64.toNat < 2 ^ 64 ↔ _
      omega
    rw [if_congr hlt rfl rfl] at hcond
    exact hcond
  rw [toNat_xor_signBit, toNat_xor_signBit, htoInt, htoInt]
  have hm := m.toUInt64.toNat_lt
  have hn := n.toUInt64.toNat_lt
  split <;> split <;> omega

/-- The numbers that the ordered bits of floats spell: the negative ones downwards, the
others from the middle upwards. -/
theorem toNat_orderedBits (x : Binary64) :
    (orderedBits x).toNat = if x.negative then 2 ^ 63 - 1 - x.payload else 2 ^ 63 + x.payload := by
  have hx := x.bits.toNat_lt
  unfold orderedBits Binary64.payload
  cases hneg : x.negative with
  | true =>
    have hhigh : 2 ^ 63 ≤ x.bits.toNat := by simpa [Binary64.negative] using hneg
    have hnot : (~~~x.bits).toNat = 2 ^ 64 - 1 - x.bits.toNat := UInt64.toNat_not _
    rw [if_pos rfl, if_pos rfl, hnot]
    omega
  | false =>
    have hlow : x.bits.toNat < 2 ^ 63 := by simpa [Binary64.negative] using hneg
    rw [if_neg (by decide), if_neg (by decide), toNat_xor_signBit, if_pos hlow]
    omega

/-- `-0.0` and `0.0`, in this order. -/
def ZerosByBits (x y : Binary64) : Prop :=
  x.isZero = true ∧ y.isZero = true ∧ x.negative = true ∧ y.negative = false

/-- Floats in the order of their bits: that of the numbers, with `-0.0` below `0.0`. -/
theorem float_identity_lt {x y : Binary64} :
    (orderedBits x).toNat < (orderedBits y).toNat ↔ x.scaled < y.scaled ∨ ZerosByBits x y := by
  have hx := x.payload_lt
  have hy := y.payload_lt
  have hx0 := @Binary64.magnitude_eq_zero x
  have hy0 := @Binary64.magnitude_eq_zero y
  have hxy := @Binary64.magnitude_lt_iff x y
  have hyx := @Binary64.magnitude_lt_iff y x
  rw [toNat_orderedBits, toNat_orderedBits]
  simp only [ZerosByBits, Binary64.isZero, Binary64.scaled, decide_eq_true_eq]
  cases x.negative <;> cases y.negative <;> simp <;> omega

/-! ## row keys -/

/-- A value that a primary key column accepts, and the key of its row. -/
structure Keyed (table : UInt64) (column : ColumnSchema) (value : Value) (key : Bytes) : Prop where
  notNull : value.isNull = false
  accepted : column.validate value = .ok ()
  key : encodeIdentity value >>= rowKey table = .ok key

theorem Keyed.key_eq {table : UInt64} {column : ColumnSchema} {value : Value} {key : Bytes}
    (h : Keyed table column value key) :
    (identity value).length < 2 ^ 32 ∧ key = rowPrefix table ++ sized (identity value) := by
  have hkey := h.key
  rw [encodeIdentity_of_validate h.notNull h.accepted] at hkey
  obtain ⟨_, hsized, hkey⟩ := bind_eq_ok.mp (show rowKey table (identity value) = .ok key from hkey)
  obtain ⟨hlen, rfl⟩ := checkedSized_ok.mp hsized
  exact ⟨hlen, (Except.ok.inj hkey).symm⟩

/-- Keys of rows are compared by the length of the identity first. -/
theorem rowKey_lt {table : UInt64} {column : ColumnSchema} {v w : Value} {kv kw : Bytes}
    (hv : Keyed table column v kv) (hw : Keyed table column w kw) :
    kv < kw ↔ (identity v).length < (identity w).length ∨
      (identity v).length = (identity w).length ∧ identity v < identity w := by
  obtain ⟨hlv, rfl⟩ := hv.key_eq
  obtain ⟨hlw, rfl⟩ := hw.key_eq
  rw [append_lt_append_iff rfl, sized, sized, append_lt_append_iff (by simp), be32_lt hlv hlw,
    be32_inj hlv hlw]
  simp

/-- `left < right` evaluates to true. -/
def SqlLess (ops : FloatOps) (left right : Value) : Prop :=
  Expression.compare ops .lessThan left right = .ok (.boolean true)

theorem sqlLess_text (ops : FloatOps) {s t : String} :
    SqlLess ops (.text s) (.text t) ↔ utf8 s < utf8 t := by
  simp [SqlLess, Expression.compare, Expression.ordering, Expression.holds,
    Ordering.isLT_iff_eq_lt, compare_eq_lt_iff]

/-- Values whose rows do not have their order: `-0.0` before `0.0`, and a text beside a
shorter one that is larger. -/
def Misordered : Value → Value → Prop
  | .float x, .float y => ZerosByBits x y
  | .text s, .text t =>
    (utf8 s).length < (utf8 t).length ∧ utf8 t < utf8 s ∨
      (utf8 t).length < (utf8 s).length ∧ utf8 s < utf8 t
  | _, _ => False

/-- Keys and values in the same order. -/
def OrderKept (ops : FloatOps) (v w : Value) (kv kw : Bytes) : Prop := kv < kw ↔ SqlLess ops v w

section

variable {table : UInt64} {column : ColumnSchema} {v w : Value} {kv kw : Bytes}

theorem boolean_order_kept (ops : FloatOps) {a b : Bool} (hv : Keyed table column (.boolean a) kv)
    (hw : Keyed table column (.boolean b) kw) :
    OrderKept ops (.boolean a) (.boolean b) kv kw := by
  have hone : (0 : UInt8) < 1 := by decide
  have hbelow : compare false true = .lt := rfl
  rw [OrderKept, rowKey_lt hv hw]
  cases a <;> cases b <;>
    simp [identity, SqlLess, Expression.compare, Expression.ordering, Expression.holds,
      List.cons_lt_cons_iff, hone, hbelow]

theorem integer_order_kept (ops : FloatOps) {m n : Int64} (hv : Keyed table column (.integer m) kv)
    (hw : Keyed table column (.integer n) kw) :
    OrderKept ops (.integer m) (.integer n) kv kw := by
  have hless : SqlLess ops (.integer m) (.integer n) ↔ m.toInt < n.toInt := by
    simp [SqlLess, Expression.compare, Expression.ordering, Expression.holds,
      Ordering.isLT_iff_eq_lt, compare_lt_iff_lt]
  rw [OrderKept, rowKey_lt hv hw, hless, ← integer_identity_lt, ← be64_lt]
  simp [identity]

theorem float_order_kept_iff (ops : FloatOps) {x y : Binary64}
    (hv : Keyed table column (.float x) kv) (hw : Keyed table column (.float y) kw) :
    OrderKept ops (.float x) (.float y) kv kw ↔ ¬ZerosByBits x y := by
  have hx : x.isFinite = true := by
    simpa [Value.isNonFinite] using isNonFinite_of_validate hv.accepted
  have hy : y.isFinite = true := by
    simpa [Value.isNonFinite] using isNonFinite_of_validate hw.accepted
  have hless : SqlLess ops (.float x) (.float y) ↔ x.scaled < y.scaled := by
    simp [SqlLess, Expression.compare, Expression.ordering, Expression.holds, Binary64.partialCmp,
      Binary64.isNaN_of_isFinite hx, Binary64.isNaN_of_isFinite hy, Ordering.isLT_iff_eq_lt,
      compare_lt_iff_lt]
  have hkeys : kv < kw ↔ x.scaled < y.scaled ∨ ZerosByBits x y := by
    rw [rowKey_lt hv hw, ← float_identity_lt, ← be64_lt]
    simp [identity]
  -- two zeros are the same number
  have hequal : ZerosByBits x y → ¬x.scaled < y.scaled := by
    rintro ⟨hx0, hy0, -, -⟩ hlt
    rw [Binary64.scaled_inj.mpr (.inr ⟨hx0, hy0⟩)] at hlt
    exact lt_irrefl _ hlt
  rw [OrderKept, hkeys, hless]
  tauto

theorem text_order_kept_iff (ops : FloatOps) {s t : String}
    (hv : Keyed table column (.text s) kv) (hw : Keyed table column (.text t) kw) :
    OrderKept ops (.text s) (.text t) kv kw ↔ ¬Misordered (.text s) (.text t) := by
  have hkeys : kv < kw ↔ (utf8 s).length < (utf8 t).length ∨
      (utf8 s).length = (utf8 t).length ∧ utf8 s < utf8 t := by
    rw [rowKey_lt hv hw]
    simp [identity]
  rw [OrderKept, hkeys, sqlLess_text, Misordered]
  rcases Std.lt_trichotomy (utf8 s) (utf8 t) with hlt | heq | hgt
  · have hnot : ¬utf8 t < utf8 s := Std.not_gt_of_lt hlt
    simp only [hlt, hnot, iff_true, and_true, and_false, false_or, not_lt]
    omega
  · have hnot : ¬utf8 t < utf8 t := Std.lt_irrefl
    simp [heq, hnot]
  · have hnot : ¬utf8 s < utf8 t := Std.not_gt_of_lt hgt
    simp [hgt, hnot]

end

/-- One pair of rows. -/
theorem order_kept_iff (ops : FloatOps) {table : UInt64} {column : ColumnSchema} {v w : Value}
    {kv kw : Bytes} (hv : Keyed table column v kv) (hw : Keyed table column w kw)
    (htype : v.sameType w = true) : OrderKept ops v w kv kw ↔ ¬Misordered v w := by
  cases v with
  | null => cases hv.notNull
  | boolean a =>
    cases w with
    | boolean b => exact iff_of_true (boolean_order_kept ops hv hw) not_false
    | _ => cases htype
  | integer m =>
    cases w with
    | integer n => exact iff_of_true (integer_order_kept ops hv hw) not_false
    | _ => cases htype
  | float x =>
    cases w with
    | float y => exact float_order_kept_iff ops hv hw
    | _ => cases htype
  | text s =>
    cases w with
    | text t => exact text_order_kept_iff ops hv hw
    | _ => cases htype

/-- **The order of rows.**  The keys of two rows have the order of the primary keys unless
the values are misordered; rows listed by their keys are listed by their primary keys
exactly if no two of them are. -/
theorem rowKey_order_iff (ops : FloatOps) (table : UInt64) (column : ColumnSchema) :
    (∀ v w kv kw, Keyed table column v kv → Keyed table column w kw → v.sameType w = true →
      ((kv < kw ↔ SqlLess ops v w) ↔ ¬Misordered v w)) ∧
    ∀ rows : List (Value × Bytes), (∀ row ∈ rows, Keyed table column row.1 row.2) →
      (rows.Pairwise fun a b => a.1.sameType b.1 = true) → (rows.Pairwise fun a b => a.2 < b.2) →
      ((rows.Pairwise fun a b => SqlLess ops a.1 b.1) ↔
        rows.Pairwise fun a b => ¬Misordered a.1 b.1) := by
  refine ⟨fun v w kv kw hv hw htype => order_kept_iff ops hv hw htype, ?_⟩
  intro rows hkeyed htypes hsorted
  have hpair : ∀ {a b : Value × Bytes}, a ∈ rows → b ∈ rows → a.1.sameType b.1 = true →
      a.2 < b.2 → (SqlLess ops a.1 b.1 ↔ ¬Misordered a.1 b.1) := by
    intro a b ha hb htype hlt
    rw [← order_kept_iff ops (hkeyed a ha) (hkeyed b hb) htype, OrderKept]
    exact ⟨iff_of_true hlt, fun h => h.mp hlt⟩
  have hboth := htypes.and hsorted
  constructor
  · intro h
    exact (hboth.and h).imp_of_mem fun ha hb hab => (hpair ha hb hab.1.1 hab.1.2).mp hab.2
  · intro h
    exact (hboth.and h).imp_of_mem fun ha hb hab => (hpair ha hb hab.1.1 hab.1.2).mpr hab.2

/-- A primary key of texts. -/
def textKeyColumn : ColumnSchema where
  name := "id"
  dataType := .text none
  nullable := false
  primaryKey := true
  unique := true

/-- Rows with the keys `'b'` and `'aa'`: the scan lists `'b'` first, and `'aa' < 'b'`. -/
theorem shorter_text_first :
    ∃ short long : Bytes, Keyed 1 textKeyColumn (.text "b") short ∧
      Keyed 1 textKeyColumn (.text "aa") long ∧ short < long ∧
      ∀ ops, SqlLess ops (.text "aa") (.text "b") ∧ ¬SqlLess ops (.text "b") (.text "aa") := by
  refine ⟨rowPrefix 1 ++ sized (identity (.text "b")), rowPrefix 1 ++ sized (identity (.text "aa")),
    ⟨rfl, by decide +kernel, by decide +kernel⟩, ⟨rfl, by decide +kernel, by decide +kernel⟩,
    by decide +kernel, fun ops => ?_⟩
  rw [sqlLess_text, sqlLess_text]
  decide +kernel

theorem rowKey_order_iff_negative_positive :
    ∃ low high : Bytes, Keyed 1 floatColumn (.float ⟨0xbff0000000000000⟩) low ∧
      Keyed 1 floatColumn (.float ⟨0x3ff0000000000000⟩) high ∧
      ∀ ops, (low < high ↔
        SqlLess ops (.float ⟨0xbff0000000000000⟩) (.float ⟨0x3ff0000000000000⟩)) := by
  have hlow : Keyed 1 floatColumn (.float ⟨0xbff0000000000000⟩)
      (rowPrefix 1 ++ sized (identity (.float ⟨0xbff0000000000000⟩))) :=
    ⟨rfl, by decide +kernel, by decide +kernel⟩
  have hhigh : Keyed 1 floatColumn (.float ⟨0x3ff0000000000000⟩)
      (rowPrefix 1 ++ sized (identity (.float ⟨0x3ff0000000000000⟩))) :=
    ⟨rfl, by decide +kernel, by decide +kernel⟩
  refine ⟨_, _, hlow, hhigh, fun ops => ?_⟩
  refine ((rowKey_order_iff ops 1 floatColumn).1 _ _ _ _ hlow hhigh rfl).mpr ?_
  rintro ⟨hzero, -⟩
  exact absurd hzero (by decide +kernel)

end QuantaDb.Engine
