import QuantaDb.Mvcc.State

/-!
# QuantaDb.Mvcc.Prefix

The half-open range from a prefix to `prefix_end` holds exactly the keys that
start with the prefix (`inRange_prefixEnd`).

Keys compare byte by byte.  Raising the last byte that can be raised gives the
first key behind them all; a prefix of nothing but `0xff` has no such key, and
then no end is needed.
-/

namespace QuantaDb.Mvcc

/-- A key is at or behind some bytes `0xff` only if it starts with them. -/
theorem compare_replicate_isLE (n : Nat) (key : Key) :
    (compare (List.replicate n 255) key).isLE = true ↔ List.replicate n 255 <+: key := by
  induction n generalizing key with
  | zero => simp [List.isLE_compare_nil_left]
  | succ n ih =>
    rw [List.replicate_succ]
    cases key with
    | nil => simp
    | cons byte key =>
      rw [List.compare_cons_cons, List.cons_prefix_cons, ← ih]
      have hmax : byte.toNat ≤ 255 := Nat.le_of_lt_succ byte.toNat_lt
      by_cases heq : (255 : UInt8) = byte
      · subst heq
        simp
      · have hne : byte.toNat ≠ 255 := fun h => heq (UInt8.toNat_inj.mp h.symm)
        have hgt : compare (255 : UInt8) byte = .gt := by
          rw [UInt8.compare_eq_toNat_compare_toNat, Nat.compare_eq_gt]
          show byte.toNat < 255
          omega
        simp [hgt, heq]

/-- Where the raised byte stands. -/
theorem raiseLast_cases (bytes : List UInt8) :
    (raiseLast bytes = none ∧ bytes = List.replicate bytes.length 255) ∨
      ∃ n byte rest, bytes = List.replicate n 255 ++ byte :: rest ∧ byte ≠ 255 ∧
        raiseLast bytes = some ((byte + 1) :: rest).reverse := by
  induction bytes with
  | nil => exact Or.inl ⟨rfl, rfl⟩
  | cons byte bytes ih =>
    rw [raiseLast]
    by_cases hmax : byte = 255
    · rw [if_pos hmax]
      rcases ih with ⟨hnone, hall⟩ | ⟨n, b, rest, hsplit, hb, hsome⟩
      · refine Or.inl ⟨hnone, ?_⟩
        rw [List.length_cons, List.replicate_succ, ← hall, hmax]
      · exact Or.inr ⟨n + 1, b, rest, by rw [hsplit, hmax, List.replicate_succ, List.cons_append],
          hb, hsome⟩
    · rw [if_neg hmax]
      exact Or.inr ⟨0, byte, bytes, rfl, hmax, rfl⟩

/-- The range between a prefix and the same prefix with its last byte raised. -/
theorem range_raised (before : Bytes) {byte : UInt8} (hbyte : byte ≠ 255) (n : Nat) (key : Key) :
    ((compare (before ++ byte :: List.replicate n 255) key).isLE = true ∧
        (compare key (before ++ [byte + 1])).isLT = true) ↔
      before ++ byte :: List.replicate n 255 <+: key := by
  induction before generalizing key with
  | nil =>
    cases key with
    | nil => simp
    | cons k key =>
      have hlt : byte.toNat < 255 := by
        have := byte.toNat_lt
        have : byte.toNat ≠ 255 := fun h => hbyte (UInt8.toNat_inj.mp h)
        omega
      have hraise : (byte + 1).toNat = byte.toNat + 1 := by
        rw [UInt8.toNat_add]
        show (byte.toNat + 1) % 256 = _
        omega
      rw [List.nil_append, List.nil_append, List.compare_cons_cons, List.compare_cons_cons,
        List.cons_prefix_cons, ← compare_replicate_isLE,
        UInt8.compare_eq_toNat_compare_toNat (x := byte),
        UInt8.compare_eq_toNat_compare_toNat (x := k), hraise]
      rcases Nat.lt_trichotomy byte.toNat k.toNat with h | h | h
      · have hne : byte ≠ k := fun heq => by rw [heq] at h; omega
        rcases Nat.lt_or_eq_of_le h with h' | h'
        · have hgt : compare k.toNat (byte.toNat + 1) = .gt := Nat.compare_eq_gt.mpr h'
          simp [hgt, hne]
        · have heq : compare k.toNat (byte.toNat + 1) = .eq := Nat.compare_eq_eq.mpr h'.symm
          cases key <;> simp [heq, hne]
      · have heq : byte = k := UInt8.toNat_inj.mp h
        subst heq
        have hbelow : compare byte.toNat (byte.toNat + 1) = .lt :=
          Nat.compare_eq_lt.mpr (Nat.lt_succ_self _)
        simp [hbelow]
      · have hne : byte ≠ k := fun heq => by rw [heq] at h; omega
        have hgt : compare byte.toNat k.toNat = .gt := Nat.compare_eq_gt.mpr h
        simp [hgt, hne]
  | cons b before ih =>
    cases key with
    | nil => simp
    | cons k key =>
      rw [List.cons_append, List.cons_append, List.compare_cons_cons, List.compare_cons_cons,
        List.cons_prefix_cons, ← ih]
      by_cases heq : b = k
      · subst heq
        simp
      · have hne : b.toNat ≠ k.toNat := fun h => heq (UInt8.toNat_inj.mp h)
        rw [UInt8.compare_eq_toNat_compare_toNat (x := b),
          UInt8.compare_eq_toNat_compare_toNat (x := k)]
        rcases Nat.lt_or_gt_of_ne hne with h | h
        · have hgt : compare k.toNat b.toNat = .gt := Nat.compare_eq_gt.mpr h
          simp [hgt, heq]
        · have hgt : compare b.toNat k.toNat = .gt := Nat.compare_eq_gt.mpr h
          simp [hgt, heq]

/-- **The range of a prefix** holds the keys that start with it, and no others. -/
theorem inRange_prefixEnd (start : Bytes) (key : Key) :
    inRange start (prefixEnd start) key = true ↔ start <+: key := by
  unfold inRange prefixEnd
  rcases raiseLast_cases start.reverse with ⟨hnone, hall⟩ | ⟨n, byte, rest, hsplit, hbyte, hsome⟩
  · have hstart : start = List.replicate start.length 255 := by
      have h := congrArg List.reverse hall
      rwa [List.reverse_reverse, List.reverse_replicate, List.length_reverse] at h
    rw [hnone, Option.all_none, Bool.and_true, hstart, compare_replicate_isLE]
  · have hstart : start = rest.reverse ++ byte :: List.replicate n 255 := by
      have h := congrArg List.reverse hsplit
      simpa using h
    rw [hsome, Option.all_some, Bool.and_eq_true, List.reverse_cons, hstart]
    exact range_raised rest.reverse hbyte n key

end QuantaDb.Mvcc
