import Mathlib

/-!
# QuantaDb.Lib.LittleEndian

Numbers as bytes, lowest byte first, or highest first (`encodeBig`).

`encode n v` is the field of `n` bytes a number is stored in, `decode` reads a
field back.  Decoding an encoded number gives the number if it fits
(`decode_encode_of_lt`); a field of a larger buffer is read with `readAt`.  Fields
with the highest byte first compare like their numbers (`encodeBig_lt`).
-/

namespace LittleEndian

/-- The `n` low bytes of a number. -/
def encode : Nat → Nat → List UInt8
  | 0, _ => []
  | n + 1, v => UInt8.ofNat v :: encode n (v / 256)

/-- The number some bytes spell. -/
def decode : List UInt8 → Nat
  | [] => 0
  | b :: bs => b.toNat + 256 * decode bs

@[simp] theorem length_encode (n v : Nat) : (encode n v).length = n := by
  induction n generalizing v with
  | zero => rfl
  | succ n ih => simp [encode, ih]

theorem decode_encode (n v : Nat) : decode (encode n v) = v % 256 ^ n := by
  induction n generalizing v with
  | zero => simp [encode, decode, Nat.mod_one]
  | succ n ih =>
    have hbyte : (UInt8.ofNat v).toNat = v % 256 := UInt8.toNat_ofNat'
    rw [encode, decode, ih, hbyte, Nat.pow_succ', Nat.mod_mul]

/-- A field holds any number that fits into it. -/
theorem decode_encode_of_lt {n v : Nat} (h : v < 256 ^ n) : decode (encode n v) = v := by
  rw [decode_encode, Nat.mod_eq_of_lt h]

/-- A field spells a number that fits into it. -/
theorem decode_lt (bs : List UInt8) : decode bs < 256 ^ bs.length := by
  induction bs with
  | nil => simp [decode]
  | cons b bs ih =>
    have hb := b.toNat_lt
    rw [decode, List.length_cons, Nat.pow_succ']
    omega

/-- A field is the bytes of the number it spells. -/
theorem encode_decode (bs : List UInt8) : encode bs.length (decode bs) = bs := by
  induction bs with
  | nil => rfl
  | cons b bs ih =>
    have hb := b.toNat_lt
    have hbyte : UInt8.ofNat (b.toNat + 256 * decode bs) = b := by
      rw [← UInt8.toNat_inj, UInt8.toNat_ofNat', Nat.add_mul_mod_self_left, Nat.mod_eq_of_lt hb]
    have hrest : (b.toNat + 256 * decode bs) / 256 = decode bs := by omega
    rw [decode, List.length_cons, encode, hbyte, hrest, ih]

/-- The field of `n` bytes at an offset. -/
def readAt (bytes : List UInt8) (offset n : Nat) : Nat := decode ((bytes.drop offset).take n)

theorem readAt_lt (bytes : List UInt8) (offset n : Nat) : readAt bytes offset n < 256 ^ n := by
  refine lt_of_lt_of_le (decode_lt _) (Nat.pow_le_pow_right (by decide) ?_)
  rw [List.length_take]
  exact Nat.min_le_left _ _

/-- The bytes of a field that lies inside the buffer are those of the number read. -/
theorem encode_readAt {bytes : List UInt8} {offset n : Nat} (h : offset + n ≤ bytes.length) :
    encode n (readAt bytes offset n) = (bytes.drop offset).take n := by
  have hlen : ((bytes.drop offset).take n).length = n := by
    rw [List.length_take, List.length_drop]
    omega
  rw [readAt]
  nth_rewrite 1 [← hlen]
  exact encode_decode _

/-- A buffer from an offset on is the field there and what follows it. -/
theorem drop_eq_take_append (bytes : List UInt8) (offset n : Nat) :
    bytes.drop offset = (bytes.drop offset).take n ++ bytes.drop (offset + n) := by
  rw [← List.drop_drop, List.take_append_drop]

/-- The same for a field that holds a number. -/
theorem drop_eq_encode_append {bytes : List UInt8} {offset n : Nat}
    (h : offset + n ≤ bytes.length) :
    bytes.drop offset = encode n (readAt bytes offset n) ++ bytes.drop (offset + n) := by
  rw [encode_readAt h, ← drop_eq_take_append]

/-- A field in which every byte is zero. -/
theorem take_eq_zeros {bytes : List UInt8} {offset n : Nat} (h : offset + n ≤ bytes.length)
    (hall : ∀ b ∈ (bytes.drop offset).take n, b = 0) :
    (bytes.drop offset).take n = List.replicate n 0 := by
  refine List.eq_replicate_iff.mpr ⟨?_, hall⟩
  rw [List.length_take, List.length_drop]
  omega

/-- The `n` low bytes of a number, highest first. -/
def encodeBig (n v : Nat) : List UInt8 := (encode n v).reverse

@[simp] theorem length_encodeBig (n v : Nat) : (encodeBig n v).length = n := by
  rw [encodeBig, List.length_reverse, length_encode]

theorem encodeBig_inj {n v w : Nat} (hv : v < 256 ^ n) (hw : w < 256 ^ n) :
    encodeBig n v = encodeBig n w ↔ v = w := by
  constructor
  · intro h
    have heq : encode n v = encode n w := List.reverse_injective h
    rw [← decode_encode_of_lt hv, heq, decode_encode_of_lt hw]
  · exact congrArg _

/-! ## the order of bytes -/

/-- Fields of one length are compared before what follows them. -/
theorem append_lt_append_iff {x y s t : List UInt8} (h : x.length = y.length) :
    x ++ s < y ++ t ↔ x < y ∨ x = y ∧ s < t := by
  induction x generalizing y with
  | nil =>
    cases y with
    | nil => simp
    | cons c y => simp at h
  | cons b x ih =>
    cases y with
    | nil => simp at h
    | cons c y =>
      rw [List.cons_append, List.cons_append, List.cons_lt_cons_iff, List.cons_lt_cons_iff,
        ih (by simpa using h), List.cons.injEq]
      tauto

/-- The comparison function and the order. -/
theorem compare_eq_lt_iff {x y : List UInt8} : compare x y = .lt ↔ x < y := by
  induction x generalizing y with
  | nil => cases y <;> simp
  | cons b x ih =>
    cases y with
    | nil => simp
    | cons c y =>
      rw [List.compare_cons_cons, List.cons_lt_cons_iff, Ordering.then_eq_lt, ih,
        Std.compare_eq_lt, Std.compare_eq_iff_eq]

theorem encodeBig_succ (n v : Nat) :
    encodeBig (n + 1) v = encodeBig n (v / 256) ++ [UInt8.ofNat v] := by
  rw [encodeBig, encode, List.reverse_cons]
  rfl

/-- Fields with the highest byte first have the order of the numbers. -/
theorem encodeBig_lt {n v w : Nat} (hv : v < 256 ^ n) (hw : w < 256 ^ n) :
    encodeBig n v < encodeBig n w ↔ v < w := by
  induction n generalizing v w with
  | zero =>
    have hv0 : v = 0 := by simpa using hv
    have hw0 : w = 0 := by simpa using hw
    simp [hv0, hw0]
  | succ n ih =>
    rw [Nat.pow_succ'] at hv hw
    have hv' : v / 256 < 256 ^ n := by omega
    have hw' : w / 256 < 256 ^ n := by omega
    have hbyte : [UInt8.ofNat v] < [UInt8.ofNat w] ↔ v % 256 < w % 256 := by
      simp [List.cons_lt_cons_iff, UInt8.lt_iff_toNat_lt]
    rw [encodeBig_succ, encodeBig_succ, append_lt_append_iff (by simp), ih hv' hw',
      encodeBig_inj hv' hw', hbyte]
    omega

end LittleEndian
