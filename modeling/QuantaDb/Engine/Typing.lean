import QuantaDb.Engine.Statements

/-!
# QuantaDb.Engine.Typing

Types that are inferred for expressions, and the values that rows give them.

`Types T nullable v` says that a value is one a column of this type may show.
Evaluation keeps it from the columns of a row up (`types_of_evaluate`), and with it
every row that a SELECT returns fits the columns that were announced for it.
-/

namespace QuantaDb.Engine

open Syntax Fallible

/-! ## typed values -/

/-- The value is NULL or of the type, and not NULL unless that is allowed.  Nothing but
NULL is of the unknown type. -/
structure Types (dataType : LogicalType) (nullable : Bool) (value : Value) : Prop where
  typed : value.isNull = true ∨ dataType ≠ .unknown ∧ dataType.admits value = true
  nonNull : nullable = false → value.isNull = false

/-- A column of this kind may be shown NULL. -/
theorem Types.null (dataType : LogicalType) : Types dataType true .null :=
  ⟨.inl rfl, by simp⟩

theorem Types.boolean (value : Bool) (nullable : Bool) : Types .boolean nullable (.boolean value) :=
  ⟨.inr ⟨by simp, rfl⟩, fun _ => rfl⟩

theorem Types.integer (value : Int64) (nullable : Bool) : Types .int64 nullable (.integer value) :=
  ⟨.inr ⟨by simp, rfl⟩, fun _ => rfl⟩

theorem Types.float (value : Binary64) (nullable : Bool) : Types .float64 nullable (.float value) :=
  ⟨.inr ⟨by simp, rfl⟩, fun _ => rfl⟩

theorem Types.text (value : String) (length : Option UInt32) (nullable : Bool) :
    Types (.text length) nullable (.text value) :=
  ⟨.inr ⟨by simp, rfl⟩, fun _ => rfl⟩

variable {column : ColumnSchema} {value : Value}

/-- What a column of a known type accepts. -/
theorem Types.of_validate (hknown : column.dataType ≠ .unknown)
    (h : column.validate value = .ok ()) :
    Types column.dataType column.nullable value := by
  rcases ColumnSchema.validate_ok.mp h with ⟨hnull, hnullable⟩ | ⟨hnull, hadmits, -, -⟩
  · exact ⟨.inl hnull, fun hfalse => by rw [hnullable] at hfalse; cases hfalse⟩
  · exact ⟨.inr ⟨hknown, hadmits⟩, fun _ => hnull⟩

variable {dataType : LogicalType}

/-- A NULL is shown only where that is allowed. -/
theorem Types.nullable {nullable : Bool} (h : Types dataType nullable .null) :
    nullable = true := by
  cases nullable with
  | true => rfl
  | false => exact absurd (h.nonNull rfl) (by simp [Value.isNull])

variable {nullable : Bool}

theorem Types.eq_int64 {value : Int64} (h : Types dataType nullable (.integer value)) :
    dataType = .int64 := by
  rcases h.typed with hnull | ⟨hknown, hadmits⟩
  · cases hnull
  · cases dataType <;> simp_all [LogicalType.admits]

theorem Types.eq_float64 {value : Binary64} (h : Types dataType nullable (.float value)) :
    dataType = .float64 := by
  rcases h.typed with hnull | ⟨hknown, hadmits⟩
  · cases hnull
  · cases dataType <;> simp_all [LogicalType.admits]

theorem Types.eq_boolean {value : Bool} (h : Types dataType nullable (.boolean value)) :
    dataType = .boolean := by
  rcases h.typed with hnull | ⟨hknown, hadmits⟩
  · cases hnull
  · cases dataType <;> simp_all [LogicalType.admits]

/-! ## operators -/

variable {v w : Value}

theorem types_of_unary {operator : UnaryOperator} (hv : Types dataType nullable v)
    (h : Expression.unary operator v = .ok w) : Types dataType nullable w := by
  unfold Expression.unary at h
  cases v with
  | null =>
    cases h
    exact hv
  | boolean v =>
    obtain rfl := hv.eq_boolean
    cases operator <;> cases h
    exact .boolean _ _
  | integer v =>
    obtain rfl := hv.eq_int64
    cases operator with
    | not => cases h
    | plus =>
      cases h
      exact .integer _ _
    | minus =>
      cases hneg : Expression.checked (-v.toInt) with
      | none => simp [Value.isNull, hneg] at h
      | some n =>
        simp only [Value.isNull, hneg] at h
        cases h
        exact .integer _ _
  | float v =>
    obtain rfl := hv.eq_float64
    cases operator <;> cases h <;> exact .float _ _
  | text v => cases operator <;> cases h

variable {v' : Value} {left right : LogicalType} {nullable' : Bool}

/-- AND and OR give NULL only if an operand is NULL. -/
theorem types_of_connective {connective : Option Bool → Option Bool → Value}
    (hconnective : ∀ a b, (∃ c, connective a b = .boolean c) ∨ connective a b = .null)
    (hdefined : ∀ a b : Bool, (connective (some a) (some b)).isNull = false)
    (hv : Types left nullable v) (hv' : Types right nullable' v') (h : (do
      let a ← Expression.boolean v
      let b ← Expression.boolean v'
      return connective a b) = .ok w) : Types .boolean (nullable || nullable') w := by
  simp only [bind_eq_ok, pure, Except.pure, Except.ok.injEq] at h
  obtain ⟨a, ha, b, hb, rfl⟩ := h
  rcases hconnective a b with ⟨c, hc⟩ | hc
  · rw [hc]
    exact .boolean c _
  · rw [hc]
    have hnull : nullable = true ∨ nullable' = true := by
      cases a with
      | none =>
        left
        cases v <;> simp [Expression.boolean] at ha
        exact hv.nullable
      | some a =>
        cases b with
        | none =>
          right
          cases v' <;> simp [Expression.boolean] at hb
          exact hv'.nullable
        | some b =>
          have := hdefined a b
          rw [hc] at this
          cases this
    rw [show (nullable || nullable') = true by simpa using hnull]
    exact .null .boolean

variable {operator : BinaryOperator}

theorem types_of_compare {ops : FloatOps} (h : Expression.compare ops operator v v' = .ok w) :
    Types .boolean nullable w := by
  unfold Expression.compare at h
  split at h
  · cases h
  · cases h
  · cases h
    exact .boolean _ _

theorem Types.of_number {ops : FloatOps} {a : Binary64} (hv : Types dataType nullable v)
    (h : Expression.number ops v = .ok a) :
    (∃ n, v = .integer n) ∨ dataType = .float64 := by
  cases v with
  | integer n => exact .inl ⟨n, rfl⟩
  | float x => exact .inr hv.eq_float64
  | _ => cases h

/-- Arithmetic is on integers if both operands are, and otherwise on floats, one of the
operands being of that type. -/
theorem types_of_arithmetic {ops : FloatOps} (result : Bool) (hv : Types left nullable v)
    (hv' : Types right nullable' v') (h : Expression.arithmetic ops operator v v' = .ok w) :
    Types (if left = .float64 ∨ right = .float64 then .float64 else .int64) result w := by
  unfold Expression.arithmetic at h
  split at h
  · obtain rfl := hv.eq_int64
    obtain rfl := hv'.eq_int64
    split at h
    · cases h
      exact .integer _ _
    · cases h
  · rename_i hints
    simp only [Expression.mixedArithmetic, bind_eq_ok, ite_error_eq_ok] at h
    obtain ⟨a, ha, b, hb, -, h⟩ := h
    have hfloat : left = .float64 ∨ right = .float64 := by
      rcases hv.of_number ha with ⟨m, rfl⟩ | hleft
      · rcases hv'.of_number hb with ⟨n, rfl⟩ | hright
        · exact absurd rfl (hints m n rfl)
        · exact .inr hright
      · exact .inl hleft
    rw [if_pos hfloat]
    split at h
    · cases h
      exact .float _ _
    · cases h

/-- An operator that gives NULL on NULL. -/
theorem types_of_strict {x : Except EngineError Value} (hv : Types left nullable v)
    (hv' : Types right nullable' v') (hx : x = .ok w → Types dataType (nullable || nullable') w)
    (h : (if (v.isNull || v'.isNull) = true then .ok .null else x) = .ok w) :
    Types dataType (nullable || nullable') w := by
  split at h
  · rename_i hnull
    cases h
    have hnullable : (nullable || nullable') = true := by
      cases v with
      | null => rw [hv.nullable, Bool.true_or]
      | _ =>
        cases v' with
        | null => rw [hv'.nullable, Bool.or_true]
        | _ => cases hnull
    rw [hnullable]
    exact .null dataType
  · exact hx h

/-- An operator on values of the types of its operands. -/
theorem types_of_binary {ops : FloatOps} (hv : Types left nullable v)
    (hv' : Types right nullable' v') (h : Expression.binary ops operator v v' = .ok w) :
    Types (inferType.binaryType operator left right) (nullable || nullable') w := by
  cases operator with
  | and =>
    refine types_of_connective (fun a b => ?_) (fun a b => ?_) hv hv' h
    · rcases a with _ | _ | _ <;> rcases b with _ | _ | _ <;> simp [Expression.conjunction]
    · cases a <;> cases b <;> rfl
  | or =>
    refine types_of_connective (fun a b => ?_) (fun a b => ?_) hv hv' h
    · rcases a with _ | _ | _ <;> rcases b with _ | _ | _ <;> simp [Expression.disjunction]
    · cases a <;> cases b <;> rfl
  | add | subtract | multiply | divide | modulo =>
    exact types_of_strict hv hv' (types_of_arithmetic _ hv hv') h
  | _ => exact types_of_strict hv hv' types_of_compare h

/-! ## expressions on a row -/

/-- The values of a row, each accepted by its column. -/
theorem validateRow_ok {schema : TableSchema} {values : List Value} :
    schema.validateRow values = .ok () ↔
      List.Forall₂ (fun column value => column.validate value = .ok ()) schema.columns values := by
  rw [TableSchema.validateRow, ite_error_eq_ok, forM_eq_ok, List.forall₂_iff_zip, not_not, eq_comm]
  simp

/-- No column of the table is of unknown type. -/
def TableSchema.Known (schema : TableSchema) : Prop :=
  ∀ column ∈ schema.columns, column.dataType ≠ .unknown

/-- The tables that CREATE TABLE makes. -/
theorem known_of_fromCreate {id : UInt64} {create : CreateTable} {schema : TableSchema}
    (h : TableSchema.fromCreate id create = .ok schema) : schema.Known := by
  simp only [TableSchema.fromCreate, ite_error_eq_ok] at h
  obtain ⟨-, -, h⟩ := h
  cases h
  intro column hcolumn
  obtain ⟨definition, -, rfl⟩ := List.mem_map.mp hcolumn
  unfold ColumnSchema.fromDefinition
  cases definition.dataType <;> simp

variable {schema : TableSchema} {values : List Value} {ops : FloatOps}

/-- `find` and `position` look for the same column. -/
theorem getElem?_position {name : String} {position : Nat}
    (hfind : schema.columns.find? (fun column => column.name == name) = some column)
    (hposition : schema.position name = some position) :
    schema.columns[position]? = some column := by
  unfold TableSchema.position at hposition
  generalize schema.columns = columns at hfind hposition
  induction columns generalizing position with
  | nil => cases hfind
  | cons first columns ih =>
    rw [List.find?_cons] at hfind
    rw [List.findIdx?_cons] at hposition
    cases hname : first.name == name with
    | true =>
      simp only [hname] at hfind hposition
      cases hfind
      cases hposition
      rfl
    | false =>
      rw [hname] at hfind
      rw [hname, if_neg Bool.false_ne_true, Option.map_eq_some_iff] at hposition
      obtain ⟨position, hposition, rfl⟩ := hposition
      exact ih hfind hposition

theorem types_of_column (hknown : schema.Known) (hrow : schema.validateRow values = .ok ())
    {position : Nat} (hcolumn : schema.columns[position]? = some column)
    (hvalue : values[position]? = some value) :
    Types column.dataType column.nullable value := by
  obtain ⟨hlt, rfl⟩ := List.getElem?_eq_some_iff.mp hcolumn
  obtain ⟨hlt', rfl⟩ := List.getElem?_eq_some_iff.mp hvalue
  exact .of_validate (hknown _ (List.getElem_mem hlt)) ((validateRow_ok.mp hrow).get hlt hlt')

/-- **Static types predict values.** -/
theorem types_of_evaluate (hknown : schema.Known) (hrow : schema.validateRow values = .ok ())
    {e : Expr} {inferred : LogicalType × Bool} (htype : inferType schema e = .ok inferred)
    (hvalue : Expression.evaluate ops schema values e = .ok value) :
    Types inferred.1 inferred.2 value := by
  induction e generalizing inferred value with
  | identifier identifier =>
    unfold inferType at htype
    unfold Expression.evaluate at hvalue
    split at htype
    · rename_i column hfind
      cases htype
      split at hvalue
      · rename_i found hget
        cases hvalue
        obtain ⟨position, hposition, hget⟩ := Option.bind_eq_some_iff.mp hget
        exact types_of_column hknown hrow (getElem?_position hfind hposition) hget
      · cases hvalue
    · cases htype
  | literal literal =>
    cases literal with
    | null =>
      cases htype
      cases hvalue
      exact .null _
    | boolean literal =>
      cases htype
      cases hvalue
      exact .boolean _ _
    | integer literal =>
      cases htype
      cases hvalue
      exact .integer _ _
    | float literal =>
      cases htype
      simp only [Expression.evaluate, Expression.literal] at hvalue
      split at hvalue
      · cases hvalue
        exact .float _ _
      · cases hvalue
    | string literal =>
      cases htype
      cases hvalue
      exact .text _ _ _
  | unary operator e ih =>
    obtain ⟨v, hv, hvalue⟩ := bind_eq_ok.mp hvalue
    exact types_of_unary (ih htype hv) hvalue
  | binary left operator right ihl ihr =>
    obtain ⟨tl, htl, htype⟩ := bind_eq_ok.mp htype
    obtain ⟨tr, htr, htype⟩ := bind_eq_ok.mp htype
    obtain ⟨vl, hvl, hvalue⟩ := bind_eq_ok.mp hvalue
    obtain ⟨vr, hvr, hvalue⟩ := bind_eq_ok.mp hvalue
    cases htype
    exact types_of_binary (ihl htl hvl) (ihr htr hvr) hvalue
  | isNull e negated ih =>
    obtain ⟨v, -, hvalue⟩ := bind_eq_ok.mp hvalue
    cases htype
    cases hvalue
    exact .boolean _ _
  | parenthesized e ih => exact ih htype hvalue

/-! ## rows of a result -/

/-- The values of a row are what its columns announce. -/
def Honours (columns : List OutputColumn) (row : List Value) : Prop :=
  List.Forall₂ (fun column value => Types column.dataType column.nullable value) columns row

variable {columns : List OutputColumn}

theorem honours_item (hknown : schema.Known) (hrow : schema.validateRow values = .ok ())
    {item : SelectItem} {row : List Value} (hcolumns : itemColumns schema item = .ok columns)
    (hvalues : itemValues ops schema values item = .ok row) : Honours columns row := by
  cases item with
  | wildcard =>
    cases hcolumns
    cases hvalues
    rw [Honours, List.forall₂_map_left_iff, List.forall₂_iff_get]
    refine ⟨(validateRow_ok.mp hrow).length_eq, fun i hi hi' => ?_⟩
    exact types_of_column hknown hrow (List.getElem?_eq_getElem hi) (List.getElem?_eq_getElem hi')
  | expression e name =>
    obtain ⟨inferred, htype, hcolumns⟩ := bind_eq_ok.mp hcolumns
    obtain ⟨value, hvalue, hvalues⟩ := bind_eq_ok.mp hvalues
    cases hcolumns
    cases hvalues
    exact .cons (types_of_evaluate hknown hrow htype hvalue) .nil

theorem honours_projected (hknown : schema.Known) (hrow : schema.validateRow values = .ok ())
    {projection : List SelectItem} {row : List Value}
    (hcolumns : projectionColumns schema projection = .ok columns)
    (hvalues : projected ops schema projection values = .ok row) : Honours columns row := by
  obtain ⟨columns, hmapped, hflat⟩ := bind_eq_ok.mp hcolumns
  obtain ⟨rows, hrows, hflat'⟩ := bind_eq_ok.mp hvalues
  cases hflat
  cases hflat'
  rw [mapM_eq_ok] at hmapped hrows
  clear hcolumns hvalues
  induction hmapped generalizing rows with
  | nil =>
    cases hrows
    exact .nil
  | cons hitem _ ih =>
    cases hrows with
    | cons hvalue hrows =>
      exact List.rel_append (honours_item hknown hrow hitem hvalue) (ih _ hrows)

variable {select : Select}

/-- The rows that a SELECT gathers. -/
theorem honours_gather (hknown : schema.Known)
    (hcolumns : projectionColumns schema select.projection = .ok columns)
    {rows : List (Bytes × List Value)} {s s' : Gathered}
    (h : gather ops schema select rows s = .ok s')
    (hs : (∀ row ∈ s.rows, Honours columns row) ∧ ∀ item ∈ s.sortable, Honours columns item.2) :
    (∀ row ∈ s'.rows, Honours columns row) ∧ ∀ item ∈ s'.sortable, Honours columns item.2 := by
  induction rows generalizing s with
  | nil =>
    cases h
    exact hs
  | cons row rows ih =>
    obtain ⟨⟨⟩, hrow, h⟩ := bind_eq_ok.mp h
    obtain ⟨selected, -, h⟩ := bind_eq_ok.mp h
    split at h
    · exact ih h hs
    · obtain ⟨shown, hshown, h⟩ := bind_eq_ok.mp h
      have hhonours := honours_projected hknown hrow hcolumns hshown
      split at h
      · have hs' : ∀ row ∈ s.rows ++ [shown], Honours columns row :=
          List.forall_mem_append.mpr ⟨hs.1, List.forall_mem_singleton.mpr hhonours⟩
        dsimp only at h
        split at h
        · cases h
          exact ⟨hs', hs.2⟩
        · exact ih h ⟨hs', hs.2⟩
      · obtain ⟨keys, -, h⟩ := bind_eq_ok.mp h
        exact ih h ⟨hs.1, List.forall_mem_append.mpr ⟨hs.2, List.forall_mem_singleton.mpr hhonours⟩⟩

/-- Sorting and the limit only choose among the rows. -/
theorem honours_sorted {s : Gathered}
    (hs : (∀ row ∈ s.rows, Honours columns row) ∧ ∀ item ∈ s.sortable, Honours columns item.2) :
    ∀ row ∈ sorted ops select s, Honours columns row := by
  unfold sorted
  split
  · exact hs.1
  · intro row hrow
    obtain ⟨item, hitem, rfl⟩ := List.mem_map.mp hrow
    apply hs.2
    split at hitem
    · exact List.mem_mergeSort.mp hitem
    · exact List.mem_mergeSort.mp (List.mem_of_mem_take hitem)

theorem honours_select {p : Platform} {t : Transaction} {rows : List (List Value)}
    (hschema : loadSchema p t select.from_.value = .ok schema) (hknown : schema.Known)
    (h : executeSelect p t select = .ok (.query columns rows)) :
    projectionColumns schema select.projection = .ok columns ∧
      ∀ row ∈ rows, Honours columns row := by
  obtain ⟨loaded, hloaded, h⟩ := bind_eq_ok.mp h
  obtain rfl := Except.ok.inj (hschema.symm.trans hloaded)
  obtain ⟨announced, hcolumns, h⟩ := bind_eq_ok.mp h
  obtain ⟨⟨⟩, -, h⟩ := bind_eq_ok.mp h
  split at h
  · cases h
    exact ⟨hcolumns, by simp⟩
  · obtain ⟨found, -, h⟩ := bind_eq_ok.mp h
    obtain ⟨gathered, hgathered, h⟩ := bind_eq_ok.mp h
    cases h
    exact ⟨hcolumns, honours_sorted (honours_gather hknown hcolumns hgathered (by simp))⟩

/-- **Static types predict values.**  On the tables that CREATE TABLE makes, an expression
that has a type and a value on an accepted row has a value of that type, NULL if the
type is unknown and never NULL if it was said not to be.  So a SELECT returns rows that
fit the columns it announces, which are also the ones that `describe` gives. -/
theorem inferred_types_honoured (p : Platform) (id : UInt64) (create : CreateTable)
    (schema : TableSchema) (hcreate : TableSchema.fromCreate id create = .ok schema) :
    (∀ (row : List Value) (e : Expr) (dataType : LogicalType) (nullable : Bool) (value : Value),
      schema.validateRow row = .ok () → inferType schema e = .ok (dataType, nullable) →
      Expression.evaluate p.floats schema row e = .ok value →
        (value.isNull = true ∨ dataType.admits value = true) ∧
        (dataType = .unknown → value.isNull = true) ∧
        (nullable = false → value.isNull = false)) ∧
    (∀ (t : Transaction) (select : Select) (nextRowId : UInt64) (columns : List OutputColumn)
      (rows : List (List Value)),
      loadSchema p t select.from_.value = .ok { schema with nextRowId } →
      executeSelect p t select = .ok (.query columns rows) →
        describe p t [.select select] = .ok (some columns) ∧
        ∀ row ∈ rows, Honours columns row) := by
  have hknown := known_of_fromCreate hcreate
  constructor
  · intro row e dataType nullable value hrow htype hvalue
    have htypes := types_of_evaluate hknown hrow htype hvalue
    refine ⟨htypes.typed.imp_right And.right, ?_, htypes.nonNull⟩
    rintro rfl
    exact htypes.typed.resolve_right (by simp)
  · intro t select nextRowId columns rows hschema hselect
    have hrows := honours_select hschema hknown hselect
    refine ⟨?_, hrows.2⟩
    exact bind_eq_ok.mpr ⟨_, hschema, bind_eq_ok.mpr ⟨columns, hrows.1, rfl⟩⟩

/-- An encoding of finitely many values, each as its place among them. -/
def Json.listed {α : Type} [DecidableEq α] (known : List α) : Json α where
  toVec value :=
    match known.idxOf? value with
    | some place => .ok [UInt8.ofNat place]
    | none => .error "unknown value"
  fromSlice bytes :=
    match bytes.head?.bind fun place => known[place.toNat]? with
    | some value => .ok value
    | none => .error "unknown place"

/-- A platform on which every float result is zero and only these values can be stored. -/
def plainPlatform (schemas : List TableSchema) (rows : List (List Value)) : Platform where
  floats := ⟨fun _ => ⟨0⟩, fun _ _ => ⟨0⟩, fun _ _ => ⟨0⟩, fun _ _ => ⟨0⟩, fun _ _ => ⟨0⟩,
    fun _ _ => ⟨0⟩⟩
  schemas := .listed schemas
  indexes := .listed []
  rows := .listed (rows.map (RowRecord.mk 1))

/-- `CREATE TABLE c (n BIGINT)`. -/
def countsTable : CreateTable := ⟨⟨"c", false⟩, false, [⟨⟨"n", false⟩, .int64, true, false, false⟩]⟩

def countsSchema : TableSchema := ⟨1, 1, "c", [⟨"n", .int64, true, false, false⟩], none, 1⟩

/-- The table can be stored, and one row for it. -/
def countsPlatform : Platform := plainPlatform [countsSchema] [[.integer 7]]

/-- The table with one row, `7`. -/
def countsContent : Content :=
  ((∅ : Content).insert (catalogTag ++ sized (utf8 "c")) [0]).insert
    (rowPrefix 1 ++ sized (be64 1)) [0]

/-- `SELECT n + 1 FROM c`. -/
def countsSelect : Select where
  projection := [.expression (.binary (.identifier ⟨"n", false⟩) .add (.literal (.integer 1))) none]
  from_ := ⟨"c", false⟩
  selection := none
  orderBy := []
  limit := none

theorem inferred_types_honoured_counts :
    TableSchema.fromCreate 1 countsTable = .ok countsSchema ∧
    executeSelect countsPlatform (.begin countsContent) countsSelect =
      .ok (.query [⟨"?column?", .int64, true⟩] [[.integer 8]]) ∧
    Honours [⟨"?column?", .int64, true⟩] [.integer 8] := by
  have hcreate : TableSchema.fromCreate 1 countsTable = .ok countsSchema := by decide +kernel
  have hselect : executeSelect countsPlatform (.begin countsContent) countsSelect =
      .ok (.query [⟨"?column?", .int64, true⟩] [[.integer 8]]) := by decide +kernel
  have hrows := (inferred_types_honoured countsPlatform 1 countsTable countsSchema hcreate).2
    (.begin countsContent) countsSelect 1 _ _ (by decide +kernel) hselect
  exact ⟨hcreate, hselect, hrows.2 _ List.mem_cons_self⟩

end QuantaDb.Engine
