import QuantaDb.Engine.Codec
import QuantaDb.Lib.Fallible
import QuantaDb.Mvcc.Prefix

/-!
# QuantaDb.Engine.Keyspace

The keys under which the relational engine keeps its records (`codec.rs`).

A key is the tag of its kind and a body of fields that are of one length or carry
their length in front (`sized`), so it can be read from the left in one way only.
`StoredKey` names the arguments of a key; different arguments make different keys
(`encode_inj`) and a scan of one of the engine's prefixes meets exactly the keys
of its kind, table or index (`under_rowPrefix` and the ones after it).
-/

namespace QuantaDb.Engine

open Fallible

/-! ## the key functions -/

def catalogTag : Bytes := utf8 "\x00quanta/catalog/table/"
def indexCatalogTag : Bytes := utf8 "\x00quanta/catalog/index/"
def rowTag : Bytes := utf8 "\x00quanta/row/"
def uniqueTag : Bytes := utf8 "\x00quanta/unique/"
def indexEntryTag : Bytes := utf8 "\x00quanta/index/"

/-- `table_id_counter_key`. -/
def tableIdCounterKey : Bytes := utf8 "\x00quanta/catalog/next_table_id"

/-- `index_id_counter_key`. -/
def indexIdCounterKey : Bytes := utf8 "\x00quanta/catalog/next_index_id"

/-- Bytes behind their length. -/
def sized (bytes : Bytes) : Bytes := be32 bytes.length ++ bytes

/-- `u32::try_from` on a length. -/
def checkedSized (bytes : Bytes) (error : EngineError) : Except EngineError Bytes :=
  if bytes.length < 2 ^ 32 then .ok (sized bytes) else .error error

/-- `component_key`. -/
def componentKey (start component : Bytes) : Except EngineError Bytes := do
  let component ← checkedSized component (.invalidSchema "identifier is too large")
  return start ++ component

/-- `catalog_key`. -/
def catalogKey (name : String) : Except EngineError Bytes := componentKey catalogTag (utf8 name)

/-- `index_catalog_key`. -/
def indexCatalogKey (name : String) : Except EngineError Bytes :=
  componentKey indexCatalogTag (utf8 name)

/-- `index_catalog_prefix`. -/
def indexCatalogPrefix : Bytes := indexCatalogTag

/-- `row_prefix`. -/
def rowPrefix (table : UInt64) : Bytes := rowTag ++ be64 table

/-- `unique_prefix`. -/
def uniquePrefix (table : UInt64) : Bytes := uniqueTag ++ be64 table

/-- `index_entry_prefix`. -/
def indexEntryPrefix (index : UInt64) : Bytes := indexEntryTag ++ be64 index

/-- `row_key`. -/
def rowKey (table : UInt64) (identity : Bytes) : Except EngineError Bytes := do
  let identity ← checkedSized identity (.invalidRow "row identity is too large")
  return rowPrefix table ++ identity

/-- `unique_key`.  The length is cut to 32 bits, not checked. -/
def uniqueKey (table : UInt64) (column : Nat) (value : Value) : Except EngineError Bytes := do
  if 2 ^ 32 ≤ column then .error (.invalidSchema "column position exceeds u32")
  else
    let identity ← encodeIdentity value
    return uniquePrefix table ++ be32 column ++ sized identity

/-- One indexed value behind the others. -/
def appendIndexed (key : Bytes) (value : Value) : Except EngineError Bytes := do
  let identity ← encodeIdentity value
  let identity ← checkedSized identity (.invalidRow "indexed value is too large")
  return key ++ identity

/-- `index_value_prefix`. -/
def indexValuePrefix (index : UInt64) (values : List Value) : Except EngineError Bytes :=
  values.foldlM appendIndexed (indexEntryPrefix index)

/-- `index_entry_key`. -/
def indexEntryKey (index : IndexSchema) (values : List Value) (rowKey : Bytes) :
    Except EngineError Bytes := do
  let key ← indexValuePrefix index.id values
  if index.unique then return key
  else
    let rowKey ← checkedSized rowKey (.invalidRow "row key is too large")
    return key ++ rowKey

/-! ## fields that can be read from the left -/

/-- Reading bytes behind their length. -/
theorem sized_append_inj {x y s t : Bytes} (hx : x.length < 2 ^ 32) (hy : y.length < 2 ^ 32) :
    sized x ++ s = sized y ++ t ↔ x = y ∧ s = t := by
  constructor
  · intro h
    rw [sized, sized, List.append_assoc, List.append_assoc] at h
    obtain ⟨hlen, hrest⟩ := List.append_inj h (by simp)
    exact List.append_inj hrest ((be32_inj hx hy).mp hlen)
  · rintro ⟨rfl, rfl⟩
    rfl

/-- Fields behind one another. -/
def sizedAll (fields : List Bytes) : Bytes := fields.flatMap sized

/-- Reading some fields off a longer list of fields. -/
theorem sizedAll_append_inj {xs ys : List Bytes} {s t : Bytes} (hx : ∀ x ∈ xs, x.length < 2 ^ 32)
    (hy : ∀ y ∈ ys, y.length < 2 ^ 32) (hlen : xs.length ≤ ys.length) :
    sizedAll xs ++ s = sizedAll ys ++ t ↔
      xs <+: ys ∧ s = sizedAll (ys.drop xs.length) ++ t := by
  induction xs generalizing ys with
  | nil => simp [sizedAll]
  | cons x xs ih =>
    cases ys with
    | nil => simp at hlen
    | cons y ys =>
      simp only [List.mem_cons, forall_eq_or_imp] at hx hy
      have hstep := ih hx.2 hy.2 (by simpa using hlen)
      simp only [sizedAll, List.flatMap_cons, List.append_assoc] at hstep ⊢
      rw [sized_append_inj hx.1 hy.1, hstep, List.cons_prefix_cons, and_assoc]
      rfl

/-! ## keys by their arguments -/

/-- The kinds of keys. -/
inductive Kind where
  | catalog
  | indexCatalog
  | tableIdCounter
  | indexIdCounter
  | row
  | unique
  | indexEntry
deriving DecidableEq, Repr

/-- What the keys of a kind start with. -/
def Kind.tag : Kind → Bytes
  | catalog => catalogTag
  | indexCatalog => indexCatalogTag
  | tableIdCounter => tableIdCounterKey
  | indexIdCounter => indexIdCounterKey
  | row => rowTag
  | unique => uniqueTag
  | indexEntry => indexEntryTag

/-- No tag starts another. -/
theorem Kind.eq_of_tag_prefix : ∀ a b : Kind, a.tag <+: b.tag → a = b := by
  intro a b
  cases a <;> cases b <;> decide +kernel

/-- The arguments of a key. -/
inductive StoredKey where
  | catalog (name : String)
  | indexCatalog (name : String)
  | tableIdCounter
  | indexIdCounter
  | row (table : UInt64) (identity : Bytes)
  | unique (table : UInt64) (column : Nat) (value : Value)
  | indexEntry (index : IndexSchema) (values : List Value) (rowKey : Bytes)
deriving DecidableEq, Repr

namespace StoredKey

/-- The key. -/
def encode : StoredKey → Except EngineError Bytes
  | catalog name => catalogKey name
  | indexCatalog name => indexCatalogKey name
  | tableIdCounter => .ok tableIdCounterKey
  | indexIdCounter => .ok indexIdCounterKey
  | row table identity => rowKey table identity
  | unique table column value => uniqueKey table column value
  | indexEntry index values rowKey => indexEntryKey index values rowKey

def kind : StoredKey → Kind
  | catalog _ => .catalog
  | indexCatalog _ => .indexCatalog
  | tableIdCounter => .tableIdCounter
  | indexIdCounter => .indexIdCounter
  | row _ _ => .row
  | unique _ _ _ => .unique
  | indexEntry _ _ _ => .indexEntry

/-- What follows the tag. -/
def body : StoredKey → Bytes
  | catalog name => sized (utf8 name)
  | indexCatalog name => sized (utf8 name)
  | tableIdCounter => []
  | indexIdCounter => []
  | row table identity => be64 table ++ sized identity
  | unique table column value => be64 table ++ (be32 column ++ sized (identity value))
  | indexEntry index values rowKey =>
    be64 index.id ++ (sizedAll (values.map identity) ++ if index.unique then [] else sized rowKey)

/-- The lengths that are checked are those of 32 bits. -/
def Fits : StoredKey → Prop
  | catalog name => (utf8 name).length < 2 ^ 32
  | indexCatalog name => (utf8 name).length < 2 ^ 32
  | row _ identity => identity.length < 2 ^ 32
  | unique _ column _ => column < 2 ^ 32
  | indexEntry index values rowKey =>
    (∀ field ∈ values.map identity, field.length < 2 ^ 32) ∧
      (index.unique = false → rowKey.length < 2 ^ 32)
  | _ => True

end StoredKey

theorem checkedSized_ok {bytes result : Bytes} {error : EngineError} :
    checkedSized bytes error = .ok result ↔ bytes.length < 2 ^ 32 ∧ result = sized bytes := by
  unfold checkedSized
  split
  · rename_i h
    simp only [Except.ok.injEq, h, true_and]
    exact eq_comm
  · rename_i h
    simp only [h, false_and, reduceCtorEq]

theorem encodeIdentity_ok {value : Value} {result : Bytes} (h : encodeIdentity value = .ok result) :
    result = identity value := by
  unfold encodeIdentity at h
  rw [ite_error_eq_ok, ite_error_eq_ok] at h
  exact (Except.ok.inj h.2.2).symm

theorem appendIndexed_ok {key next : Bytes} {value : Value}
    (h : appendIndexed key value = .ok next) :
    (identity value).length < 2 ^ 32 ∧ next = key ++ sized (identity value) := by
  obtain ⟨bytes, hid, h⟩ := bind_eq_ok.mp h
  obtain ⟨field, hfield, h⟩ := bind_eq_ok.mp h
  obtain ⟨hlen, rfl⟩ := checkedSized_ok.mp hfield
  rw [encodeIdentity_ok hid] at hlen h
  exact ⟨hlen, (Except.ok.inj h).symm⟩

/-- A key with its indexed values. -/
theorem foldlM_appendIndexed {values : List Value} {start key : Bytes}
    (h : values.foldlM appendIndexed start = .ok key) :
    key = start ++ sizedAll (values.map identity) ∧
      ∀ field ∈ values.map identity, field.length < 2 ^ 32 := by
  induction values generalizing start with
  | nil =>
    cases h
    simp [sizedAll]
  | cons value values ih =>
    rw [List.foldlM_cons] at h
    obtain ⟨next, hnext, hrest⟩ := bind_eq_ok.mp h
    obtain ⟨hlen, rfl⟩ := appendIndexed_ok hnext
    obtain ⟨rfl, hlens⟩ := ih hrest
    refine ⟨by simp [sizedAll], ?_⟩
    simpa using ⟨hlen, by simpa using hlens⟩

namespace StoredKey

variable {bytes : Bytes}

/-- A key is its tag and its body. -/
theorem encode_ok {key : StoredKey} (h : key.encode = .ok bytes) :
    bytes = key.kind.tag ++ key.body ∧ key.Fits := by
  cases key with
  | catalog name =>
    obtain ⟨field, hfield, h⟩ := bind_eq_ok.mp h
    obtain ⟨hlen, rfl⟩ := checkedSized_ok.mp hfield
    exact ⟨(Except.ok.inj h).symm, hlen⟩
  | indexCatalog name =>
    obtain ⟨field, hfield, h⟩ := bind_eq_ok.mp h
    obtain ⟨hlen, rfl⟩ := checkedSized_ok.mp hfield
    exact ⟨(Except.ok.inj h).symm, hlen⟩
  | tableIdCounter => exact ⟨by simpa [body, Kind.tag, kind] using (Except.ok.inj h).symm, trivial⟩
  | indexIdCounter => exact ⟨by simpa [body, Kind.tag, kind] using (Except.ok.inj h).symm, trivial⟩
  | row table identity =>
    obtain ⟨field, hfield, h⟩ := bind_eq_ok.mp h
    obtain ⟨hlen, rfl⟩ := checkedSized_ok.mp hfield
    refine ⟨?_, hlen⟩
    rw [← Except.ok.inj h]
    exact List.append_assoc _ _ _
  | unique table column value =>
    rw [encode, uniqueKey, ite_error_eq_ok] at h
    obtain ⟨hcolumn, h⟩ := h
    obtain ⟨bytes, hid, h⟩ := bind_eq_ok.mp h
    rw [← Except.ok.inj h, encodeIdentity_ok hid]
    refine ⟨?_, Nat.lt_of_not_le hcolumn⟩
    simp [uniquePrefix, Kind.tag, kind, body, List.append_assoc]
  | indexEntry index values rowKey =>
    obtain ⟨start, hstart, h⟩ := bind_eq_ok.mp h
    obtain ⟨rfl, hlens⟩ := foldlM_appendIndexed hstart
    cases hunique : index.unique with
    | true =>
      rw [hunique, if_pos rfl] at h
      rw [← Except.ok.inj h]
      refine ⟨?_, hlens, fun hfalse => by simp [hunique] at hfalse⟩
      simp [indexEntryPrefix, Kind.tag, kind, body, hunique]
    | false =>
      rw [hunique, if_neg (by simp)] at h
      obtain ⟨field, hfield, h⟩ := bind_eq_ok.mp h
      obtain ⟨hlen, rfl⟩ := checkedSized_ok.mp hfield
      rw [← Except.ok.inj h]
      refine ⟨?_, hlens, fun _ => hlen⟩
      simp [indexEntryPrefix, Kind.tag, kind, body, hunique]

/-- Keys with a common part are of one kind. -/
theorem kind_eq {a b : Kind} {s t : Bytes} (h : a.tag ++ s = b.tag ++ t) : a = b := by
  have hb : b.tag <+: a.tag ++ s := ⟨t, h.symm⟩
  rcases List.prefix_or_prefix_of_prefix (List.prefix_append a.tag s) hb with hab | hba
  · exact Kind.eq_of_tag_prefix a b hab
  · exact (Kind.eq_of_tag_prefix b a hba).symm

/-- The arguments an entry is found by: for a unique index the row key is not
among them. -/
def canonical : StoredKey → StoredKey
  | indexEntry index values rowKey =>
    indexEntry index values (if index.unique then [] else rowKey)
  | key => key

/-- A key of a database with these indexes. -/
def Valid (indexes : List IndexSchema) : StoredKey → Prop
  | unique _ _ value => (identity value).length < 2 ^ 32
  | indexEntry index values _ => index ∈ indexes ∧ values.length = index.columns.length
  | _ => True

theorem be64_append_inj {x y : UInt64} {s t : Bytes} : be64 x ++ s = be64 y ++ t ↔ x = y ∧
    s = t := by
  constructor
  · intro h
    obtain ⟨hx, hs⟩ := List.append_inj h (by simp)
    exact ⟨be64_inj.mp hx, hs⟩
  · rintro ⟨rfl, rfl⟩
    rfl

theorem sized_inj {x y : Bytes} (hx : x.length < 2 ^ 32) (hy : y.length < 2 ^ 32) :
    sized x = sized y ↔ x = y := by
  simpa using @sized_append_inj x y [] [] hx hy

theorem map_identity_inj {vs ws : List Value} : vs.map identity = ws.map identity ↔ vs = ws :=
  List.map_inj_right (fun _ _ => identity_inj.mp)

variable {indexes : List IndexSchema} {k : StoredKey}

/-- Bodies of keys of one kind. -/
theorem body_inj (hids : (indexes.map IndexSchema.id).Nodup) {k' : StoredKey}
    (hkind : k.kind = k'.kind) (hfits : k.Fits) (hfits' : k'.Fits) (hvalid : k.Valid indexes)
    (hvalid' : k'.Valid indexes) :
    k.body = k'.body ↔ k.canonical = k'.canonical := by
  cases k with
  | catalog name =>
    cases k' with
    | catalog name' =>
      rw [body, body, sized_inj hfits hfits', utf8_inj]
      simp [canonical]
    | _ => cases hkind
  | indexCatalog name =>
    cases k' with
    | indexCatalog name' =>
      rw [body, body, sized_inj hfits hfits', utf8_inj]
      simp [canonical]
    | _ => cases hkind
  | tableIdCounter =>
    cases k' with
    | tableIdCounter => simp
    | _ => cases hkind
  | indexIdCounter =>
    cases k' with
    | indexIdCounter => simp
    | _ => cases hkind
  | row table identity =>
    cases k' with
    | row table' identity' =>
      rw [body, body, be64_append_inj, sized_inj hfits hfits']
      simp [canonical]
    | _ => cases hkind
  | unique table column value =>
    cases k' with
    | unique table' column' value' =>
      have hcolumn : ∀ s t : Bytes, be32 column ++ s = be32 column' ++ t ↔
          column = column' ∧ s = t := by
        intro s t
        constructor
        · intro h
          obtain ⟨hx, hs⟩ := List.append_inj h (by simp)
          exact ⟨(be32_inj hfits hfits').mp hx, hs⟩
        · rintro ⟨rfl, rfl⟩
          rfl
      rw [body, body, be64_append_inj, hcolumn, sized_inj hvalid hvalid', identity_inj]
      simp [canonical]
    | _ => cases hkind
  | indexEntry index values rowKey =>
    cases k' with
    | indexEntry index' values' rowKey' =>
      rw [body, body, be64_append_inj]
      constructor
      · rintro ⟨hid, h⟩
        obtain rfl : index = index' :=
          List.inj_on_of_nodup_map hids hvalid.1 hvalid'.1 hid
        rw [sizedAll_append_inj hfits.1 hfits'.1 (by simp [hvalid.2, hvalid'.2])] at h
        obtain ⟨hvalues, hrest⟩ := h
        have hlen : (values.map identity).length = (values'.map identity).length := by
          simp [hvalid.2, hvalid'.2]
        obtain rfl := map_identity_inj.mp (hvalues.eq_of_length hlen)
        rw [List.drop_length] at hrest
        cases hunique : index.unique with
        | true => simp [canonical, hunique]
        | false =>
          rw [hunique] at hrest
          have hrow := (sized_inj (hfits.2 hunique) (hfits'.2 hunique)).mp
            (by simpa [sizedAll] using hrest)
          simp [canonical, hunique, hrow]
      · intro h
        simp only [canonical, indexEntry.injEq] at h
        obtain ⟨rfl, rfl, hrow⟩ := h
        refine ⟨rfl, ?_⟩
        cases hunique : index.unique with
        | true => rfl
        | false =>
          rw [hunique] at hrow
          have hrow' : rowKey = rowKey' := by simpa using hrow
          rw [hrow']
    | _ => cases hkind

/-- **Keys are equal only for equal arguments.** -/
theorem encode_inj (hids : (indexes.map IndexSchema.id).Nodup) {k' : StoredKey} {bytes' : Bytes}
    (hk : k.encode = .ok bytes) (hk' : k'.encode = .ok bytes') (hvalid : k.Valid indexes)
    (hvalid' : k'.Valid indexes) :
    bytes = bytes' ↔ k.canonical = k'.canonical := by
  obtain ⟨rfl, hfits⟩ := encode_ok hk
  obtain ⟨rfl, hfits'⟩ := encode_ok hk'
  have hcanonical : ∀ key : StoredKey, key.canonical.kind = key.kind := by
    intro key
    cases key <;> rfl
  constructor
  · intro h
    have hkind := kind_eq h
    rw [hkind] at h
    exact (body_inj hids hkind hfits hfits' hvalid hvalid').mp (List.append_cancel_left h)
  · intro h
    have hkind : k.kind = k'.kind := by rw [← hcanonical k, h, hcanonical k']
    rw [hkind, (body_inj hids hkind hfits hfits' hvalid hvalid').mpr h]

/-! ## scans of a prefix -/

/-- A key of the range a scan of a prefix runs over. -/
def Under (start bytes : Bytes) : Prop := Mvcc.inRange start (Mvcc.prefixEnd start) bytes = true

theorem under_iff {start : Bytes} : Under start bytes ↔ start <+: bytes :=
  Mvcc.inRange_prefixEnd start bytes

/-- What starts with a tag is of its kind. -/
theorem under_tag {k : StoredKey} {bytes field : Bytes} {kind : Kind} (hk : k.encode = .ok bytes) :
    Under (kind.tag ++ field) bytes ↔ k.kind = kind ∧ field <+: k.body := by
  obtain ⟨rfl, -⟩ := encode_ok hk
  rw [under_iff]
  constructor
  · rintro ⟨rest, hrest⟩
    rw [List.append_assoc] at hrest
    have hkind := kind_eq hrest
    rw [hkind] at hrest
    exact ⟨hkind.symm, rest, List.append_cancel_left hrest⟩
  · rintro ⟨rfl, hfield⟩
    exact (List.prefix_append_right_inj _).mpr hfield

theorem be64_prefix {x y : UInt64} {t : Bytes} : be64 x <+: be64 y ++ t ↔ x = y := by
  constructor
  · rintro ⟨s, hs⟩
    exact (be64_append_inj.mp hs).1
  · rintro rfl
    exact List.prefix_append _ _

theorem under_rowPrefix (hk : k.encode = .ok bytes) (table : UInt64) :
    Under (rowPrefix table) bytes ↔ ∃ identity, k = .row table identity := by
  rw [rowPrefix, show rowTag = Kind.tag .row from rfl, under_tag hk]
  cases k with
  | row table' identity =>
    rw [body, be64_prefix]
    simp [kind, eq_comm]
  | _ => simp [kind]

theorem under_uniquePrefix (hk : k.encode = .ok bytes) (table : UInt64) :
    Under (uniquePrefix table) bytes ↔ ∃ column value, k = .unique table column value := by
  rw [uniquePrefix, show uniqueTag = Kind.tag .unique from rfl, under_tag hk]
  cases k with
  | unique table' column value =>
    rw [body, be64_prefix]
    simp [kind, eq_comm]
  | _ => simp [kind]

theorem under_indexEntryPrefix (hk : k.encode = .ok bytes) (id : UInt64) :
    Under (indexEntryPrefix id) bytes ↔
      ∃ index values rowKey, k = .indexEntry index values rowKey ∧ index.id = id := by
  rw [indexEntryPrefix, show indexEntryTag = Kind.tag .indexEntry from rfl, under_tag hk]
  cases k with
  | indexEntry index values rowKey =>
    rw [body, be64_prefix]
    simp [kind, eq_comm]
  | _ => simp [kind]

theorem under_indexCatalogPrefix (hk : k.encode = .ok bytes) :
    Under indexCatalogPrefix bytes ↔ ∃ name, k = .indexCatalog name := by
  have h := @under_tag k bytes [] .indexCatalog hk
  rw [List.append_nil] at h
  rw [indexCatalogPrefix, show indexCatalogTag = Kind.tag .indexCatalog from rfl, h]
  cases k <;> simp [kind]

/-- Values that lead an index lead exactly to the entries that start with them. -/
theorem under_indexValuePrefix (hids : (indexes.map IndexSchema.id).Nodup) {start : Bytes}
    (hk : k.encode = .ok bytes) (hvalid : k.Valid indexes) {index : IndexSchema}
    (hindex : index ∈ indexes) {leading : List Value}
    (hleading : leading.length ≤ index.columns.length)
    (hstart : indexValuePrefix index.id leading = .ok start) :
    Under start bytes ↔ ∃ values rowKey, k = .indexEntry index values rowKey ∧
      leading.map identity <+: values.map identity := by
  obtain ⟨rfl, hlens⟩ := foldlM_appendIndexed hstart
  rw [indexEntryPrefix, show indexEntryTag = Kind.tag .indexEntry from rfl, List.append_assoc,
    under_tag hk]
  obtain ⟨-, hfits⟩ := encode_ok hk
  cases k with
  | indexEntry index' values rowKey =>
    have hsplit : be64 index.id ++ sizedAll (leading.map identity) <+: body
      (.indexEntry index' values rowKey) ↔
        index = index' ∧ leading.map identity <+: values.map identity := by
      rw [body]
      constructor
      · rintro ⟨rest, hrest⟩
        rw [List.append_assoc, be64_append_inj] at hrest
        obtain ⟨hid, hrest⟩ := hrest
        obtain rfl := List.inj_on_of_nodup_map hids hindex hvalid.1 hid
        rw [sizedAll_append_inj hlens hfits.1 (by simp [hvalid.2, hleading])] at hrest
        exact ⟨rfl, hrest.1⟩
      · rintro ⟨rfl, more, hmore⟩
        rw [← hmore]
        refine (List.prefix_append_right_inj _).mpr ?_
        simp [sizedAll]
    rw [hsplit]
    simp [kind, eq_comm]
  | _ => simp [kind]

/-- **The keyspace.**  Two keys are equal exactly for equal arguments, where the row key
counts for entries of indexes that are not unique, and the engine's prefixes cover
exactly the keys of their kind, table or index. -/
theorem keyspace_unambiguous (indexes : List IndexSchema)
    (hids : (indexes.map IndexSchema.id).Nodup) (k k' : StoredKey) (bytes bytes' : Bytes)
    (hk : k.encode = .ok bytes) (hk' : k'.encode = .ok bytes') (hvalid : k.Valid indexes)
    (hvalid' : k'.Valid indexes) :
    (bytes = bytes' ↔ k.canonical = k'.canonical) ∧
      (∀ table, Under (rowPrefix table) bytes ↔ ∃ identity, k = .row table identity) ∧
      (∀ table, Under (uniquePrefix table) bytes ↔ ∃ column value, k = .unique table column value) ∧
      (∀ id, Under (indexEntryPrefix id) bytes ↔
        ∃ index values rowKey, k = .indexEntry index values rowKey ∧ index.id = id) ∧
      (Under indexCatalogPrefix bytes ↔ ∃ name, k = .indexCatalog name) ∧
      (∀ index ∈ indexes, ∀ leading start, leading.length ≤ index.columns.length →
        indexValuePrefix index.id leading = .ok start →
          (Under start bytes ↔ ∃ values rowKey, k = .indexEntry index values rowKey ∧
            leading.map identity <+: values.map identity)) := by
  refine ⟨encode_inj hids hk hk' hvalid hvalid', under_rowPrefix hk, under_uniquePrefix hk,
    under_indexEntryPrefix hk, under_indexCatalogPrefix hk, ?_⟩
  intro index hindex leading start hleading hstart
  exact under_indexValuePrefix hids hk hvalid hindex hleading hstart

/-- A unique index on two columns. -/
def pairIndex : IndexSchema where
  formatVersion := 1
  id := 7
  name := "pair"
  tableId := 1
  columns := [0, 1]
  unique := true

/-- Entries of a unique index for two rows with the same values. -/
theorem unique_entries_share_key :
    ∃ key key' : Bytes, rowKey 1 [1] = .ok key ∧ rowKey 1 [2] = .ok key' ∧ key ≠ key' ∧
      indexEntryKey pairIndex [.integer 1, .text "a"] key =
        indexEntryKey pairIndex [.integer 1, .text "a"] key' ∧
      (indexEntryKey pairIndex [.integer 1, .text "a"] key).isOk = true := by
  obtain ⟨key, hkey⟩ : ∃ key, rowKey 1 [1] = .ok key := ⟨_, rfl⟩
  obtain ⟨key', hkey'⟩ : ∃ key, rowKey 1 [2] = .ok key := ⟨_, rfl⟩
  refine ⟨key, key', hkey, hkey', ?_, rfl, rfl⟩
  rintro rfl
  exact absurd (hkey.trans hkey'.symm) (by decide +kernel)

theorem keyspace_unambiguous_pair :
    ∃ bytes, (indexEntry pairIndex [.integer 1, .text "a"] []).encode = .ok bytes ∧
      ∀ start, indexValuePrefix 7 [.integer 2] = .ok start → ¬Under start bytes := by
  obtain ⟨bytes, hbytes⟩ :
      ∃ bytes, (indexEntry pairIndex [.integer 1, .text "a"] []).encode = .ok bytes := ⟨_, rfl⟩
  refine ⟨bytes, hbytes, fun start hstart hunder => ?_⟩
  have hkeys := keyspace_unambiguous [pairIndex] (by decide) _ _ _ _ hbytes hbytes
    (by simp [Valid, pairIndex]) (by simp [Valid, pairIndex])
  obtain ⟨values, rowKey, hk, hleading⟩ :=
    (hkeys.2.2.2.2.2 pairIndex (by simp) [.integer 2] start (by decide) hstart).mp hunder
  simp only [indexEntry.injEq, true_and] at hk
  rw [← hk.1] at hleading
  exact absurd hleading (by decide +kernel)

end StoredKey

end QuantaDb.Engine
