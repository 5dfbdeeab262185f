import QuantaDb.Engine.Statements

/-!
# QuantaDb.Engine.Writing

Whatever a statement does to its transaction, it does by writing keys.

So a statement that succeeds leaves the snapshot of its transaction alone, and what the
transaction has written by then are the writes that were made one by one (`Writes.made`).
-/

namespace QuantaDb.Engine

open Syntax Fallible

/-- One write after the other. -/
def Writes : Transaction → Transaction → Prop :=
  Relation.ReflTransGen fun t t' => ∃ key value, t.write key value = .ok t'

namespace Writes

variable {t t₁ t₂ : Transaction}

theorem refl : Writes t t := Relation.ReflTransGen.refl

theorem trans (h : Writes t t₁) (h' : Writes t₁ t₂) : Writes t t₂ :=
  Relation.ReflTransGen.trans h h'

/-- What is written from here on is written on top of what was. -/
theorem ensures {x : Except EngineError Transaction} (h : Writes t t₁)
    (hx : Ensures (Writes t₁) x) : Ensures (Writes t) x := hx.mono fun _ => h.trans

/-- The writes that were made, each of a size that is accepted; all else of the transaction is
as it was. -/
theorem made (h : Writes t t₁) : ∃ made,
    (∀ write ∈ made, Mvcc.validateSize write.1 write.2 = .ok ()) ∧
    t₁ = { t with
      writes := made.foldl (fun writes write => writes.insert write.1 write.2) t.writes
      made := t.made ++ made } := by
  induction h with
  | refl => exact ⟨[], by simp, by simp⟩
  | tail _ hwrite ih =>
    obtain ⟨made, hsizes, rfl⟩ := ih
    obtain ⟨key, value, hwrite⟩ := hwrite
    obtain ⟨⟨⟩, hsize, hwrite⟩ := bind_eq_ok.mp hwrite
    cases hwrite
    refine ⟨made ++ [(key, value)], fun write hmem => ?_, by simp⟩
    rcases List.mem_append.mp hmem with hmem | hmem
    · exact hsizes write hmem
    · rw [List.mem_singleton.mp hmem]
      exact mapError_eq_ok.mp hsize

end Writes

section

variable (p : Platform) (t : Transaction)

/-- A put is one write. -/
theorem writes_put (key value : Bytes) : Ensures (Writes t) (t.put key value) := fun _ h =>
  Relation.ReflTransGen.single ⟨key, some value, h⟩

theorem writes_delete (key : Bytes) : Ensures (Writes t) (t.delete key) := fun _ h =>
  Relation.ReflTransGen.single ⟨key, none, h⟩

/-- The loops that delete keys. -/
theorem writes_deleteAll (keys : List Bytes) : Ensures (Writes t) (t.deleteAll keys) :=
  .foldlM .refl fun t' key h => h.ensures (writes_delete t' key)

/-! ## the entries of a row -/

/-- `acquire_unique_keys`. -/
theorem writes_acquireUniqueKeys (schema : TableSchema) (values : List Value) (rowKey : Bytes) :
    Ensures (Writes t) (acquireUniqueKeys t schema values rowKey) := by
  refine .foldlM .refl fun t' entry h => h.ensures ?_
  unfold acquireUniqueKey
  split
  · refine .skip fun key => ?_
    split
    · exact .error
    · exact writes_put t' _ _
  · exact .ok .refl

theorem writes_releaseUniqueKeys (schema : TableSchema) (values : List Value) :
    Ensures (Writes t) (releaseUniqueKeys t schema values) := by
  refine .foldlM .refl fun t' entry h => h.ensures ?_
  unfold releaseUniqueKey
  split
  · exact .skip fun key => writes_delete t' key
  · exact .ok .refl

theorem writes_takeUniqueKey (schema : TableSchema) (new : Value) (changed : Bool)
    (newRowKey : Bytes) (entry : ColumnSchema × Nat) :
    Ensures (Writes t) (takeUniqueKey schema new changed newRowKey entry t) := by
  unfold takeUniqueKey
  split
  · exact .ok .refl
  · refine .skip fun key => ?_
    split
    · exact .error
    · exact writes_put t _ _

theorem writes_dropUniqueKey (schema : TableSchema) (old : Value) (changed : Bool)
    (entry : ColumnSchema × Nat) :
    Ensures (Writes t) (dropUniqueKey schema old changed entry t) := by
  unfold dropUniqueKey
  split
  · exact .skip fun key => writes_delete t key
  · exact .ok .refl

/-- `update_unique_keys`. -/
theorem writes_updateUniqueKeys (schema : TableSchema) (old new : List Value)
    (oldRowKey newRowKey : Bytes) :
    Ensures (Writes t) (updateUniqueKeys t schema old new oldRowKey newRowKey) := by
  refine .foldlM .refl fun t' entry h => h.ensures ?_
  unfold updateUniqueKey
  split
  · exact .ok .refl
  · dsimp only
    split
    · exact .ok .refl
    · exact (writes_takeUniqueKey t' schema _ _ _ entry).bind fun t₁ h₁ =>
        h₁.ensures (writes_dropUniqueKey t₁ schema _ _ entry)

/-- `add_index_entries`. -/
theorem writes_addIndexEntries (indexes : List IndexSchema) (values : List Value)
    (rowKey : Bytes) : Ensures (Writes t) (addIndexEntries t indexes values rowKey) := by
  refine .foldlM .refl fun t' index h => h.ensures ?_
  unfold addIndexEntry
  split
  · exact .ok .refl
  · refine .skip fun entry => ?_
    split
    · exact .error
    · exact writes_put t' _ _

theorem writes_removeIndexEntries (indexes : List IndexSchema) (values : List Value)
    (rowKey : Bytes) : Ensures (Writes t) (removeIndexEntries t indexes values rowKey) := by
  refine .foldlM .refl fun t' index h => h.ensures ?_
  unfold removeIndexEntry
  split
  · exact .ok .refl
  · exact .skip fun entry => writes_delete t' entry

/-! ## rows -/

/-- A row of an `INSERT` is written with its unique keys and entries. -/
theorem writes_insertRow (positions : List Nat) (existingRows : List (List Value))
    (indexes : List IndexSchema) (s : Inserting) (expressions : List Expr) :
    Ensures (fun s' => Writes s.t s'.t)
      (insertRow p positions existingRows indexes s expressions) := by
  refine .skip fun values => .skip fun _ => .skip fun _ => .skip fun identity => .skip fun key => ?_
  split
  · exact .error
  · refine (writes_acquireUniqueKeys s.t s.schema values key).bind fun t₁ h₁ => ?_
    refine (h₁.ensures (writes_addIndexEntries t₁ indexes values key)).bind fun t₂ h₂ => ?_
    refine .skip fun bytes => ?_
    exact (h₂.ensures (writes_put t₂ key bytes)).bind fun t₃ h₃ => .ok h₃

theorem writes_storeRowId (schemaKey : Bytes) (s : Inserting) :
    Ensures (Writes s.t) (storeRowId p schemaKey s) := by
  unfold storeRowId
  split
  · exact .skip fun bytes => writes_put s.t schemaKey bytes
  · exact .ok .refl

/-- A row whose primary key changes moves. -/
theorem writes_moveRow (rows : List (Bytes × List Value)) (position : Nat) (oldKey newKey : Bytes) :
    Ensures (Writes t) (moveRow rows position oldKey newKey t) := by
  unfold moveRow
  split
  · exact .ok .refl
  · split
    · exact .error
    · exact writes_delete t oldKey

/-- A row of an `UPDATE`. -/
theorem writes_updateRow (schema : TableSchema) (selection : Option Expr)
    (assignments : List (Nat × Expr)) (indexes : List IndexSchema) (s : Updating)
    (position : Nat) : Ensures (fun s' => Writes s.t s'.t)
      (updateRow p schema selection assignments indexes s position) := by
  unfold updateRow
  split
  · exact .ok .refl
  · refine .skip fun selected => ?_
    split
    · refine .skip fun updated => .skip fun _ => .skip fun _ => .skip fun newKey => ?_
      refine (writes_updateUniqueKeys s.t schema _ updated _ newKey).bind fun t₁ h₁ => ?_
      refine (h₁.ensures (writes_removeIndexEntries t₁ indexes _ _)).bind fun t₂ h₂ => ?_
      refine (h₂.ensures (writes_addIndexEntries t₂ indexes updated newKey)).bind fun t₃ h₃ => ?_
      refine (h₃.ensures (writes_moveRow t₃ s.rows position _ newKey)).bind fun t₄ h₄ => ?_
      refine .skip fun bytes => ?_
      exact (h₄.ensures (writes_put t₄ newKey bytes)).bind fun t₅ h₅ => .ok h₅
    · exact .ok .refl

/-- A row of a `DELETE`. -/
theorem writes_deleteRow (schema : TableSchema) (selection : Option Expr)
    (indexes : List IndexSchema) (s : Transaction × Nat) (row : Bytes × List Value) :
    Ensures (fun s' => Writes s.1 s'.1) (deleteRow p schema selection indexes s row) := by
  refine .skip fun _ => .skip fun selected => ?_
  split
  · refine (writes_releaseUniqueKeys s.1 schema row.2).bind fun t₁ h₁ => ?_
    refine (h₁.ensures (writes_removeIndexEntries t₁ indexes row.2 row.1)).bind fun t₂ h₂ => ?_
    exact (h₂.ensures (writes_delete t₂ row.1)).bind fun t₃ h₃ => .ok h₃
  · exact .ok .refl

/-! ## tables and indexes -/

/-- `CREATE TABLE` writes its schema. -/
theorem writes_createTable (create : CreateTable) :
    Ensures (fun done => Writes t done.2) (executeCreateTable p t create) := by
  refine .skip fun key => ?_
  split
  · split
    · exact .ok .refl
    · exact .error
  · refine .skip fun ids => .skip fun schema => .skip fun bytes => ?_
    refine (writes_put t key bytes).bind fun t₁ h₁ => ?_
    exact (h₁.ensures (writes_put t₁ _ _)).bind fun t₂ h₂ => .ok h₂

/-- `DROP TABLE` deletes rows, unique keys and indexes. -/
theorem writes_dropTable (key bytes : Bytes) : Ensures (Writes t) (dropTable p t key bytes) := by
  refine .skip fun schema => ?_
  refine (writes_deleteAll t _).bind fun t₁ h₁ => ?_
  refine (h₁.ensures (writes_deleteAll t₁ _)).bind fun t₂ h₂ => ?_
  refine .skip fun indexes => ?_
  refine Ensures.bind (P := Writes t) (.foldlM h₂ fun t' index h => h.ensures ?_) fun t₃ h₃ =>
    h₃.ensures (writes_delete t₃ key)
  exact (writes_deleteAll t' _).bind fun t'' h'' => .skip fun key =>
    h''.ensures (writes_delete t'' key)

/-- `CREATE INDEX` writes an entry for each row there is. -/
theorem writes_createIndex (create : CreateIndex) (key : Bytes) :
    Ensures (Writes t) (createIndex p t create key) := by
  refine .skip fun schema => .skip fun columns => .skip fun ids => ?_
  refine (writes_put t _ _).bind fun t₁ h₁ => ?_
  refine .skip fun bytes => ?_
  refine (h₁.ensures (writes_put t₁ key bytes)).bind fun t₂ h₂ => ?_
  refine .foldlM h₂ fun t' entry h => h.ensures ?_
  exact .skip fun values => writes_addIndexEntries t' _ values _

/-- `DROP INDEX` deletes its entries. -/
theorem writes_dropIndex (key bytes : Bytes) : Ensures (Writes t) (dropIndex p t key bytes) := by
  refine .skip fun index => ?_
  exact (writes_deleteAll t _).bind fun t₁ h₁ => h₁.ensures (writes_delete t₁ key)

/-- **Statements write keys**, and nothing else of their transaction changes. -/
theorem writes_of_execute (statement : Statement) :
    Ensures (fun done => Writes t done.2) (executeInTransaction p t statement) := by
  cases statement with
  | createTable create => exact writes_createTable p t create
  | dropTable drop =>
    refine .skip fun key => ?_
    split
    · split
      · exact .ok .refl
      · exact .error
    · exact (writes_dropTable p t _ _).bind fun t₁ h₁ => .ok h₁
  | createIndex create =>
    refine .skip fun key => ?_
    split
    · split
      · exact .ok .refl
      · exact .error
    · exact (writes_createIndex p t create key).bind fun t₁ h₁ => .ok h₁
  | dropIndex drop =>
    refine .skip fun key => ?_
    split
    · split
      · exact .ok .refl
      · exact .error
    · exact (writes_dropIndex p t _ _).bind fun t₁ h₁ => .ok h₁
  | insert insert =>
    refine .skip fun schemaKey => .skip fun schema => .skip fun positions => .skip fun rows =>
      .skip fun indexes => ?_
    refine Ensures.bind (P := fun s => Writes t s.t) (.foldlM .refl fun s expressions h => ?_)
      fun s h => (h.ensures (writes_storeRowId p schemaKey s)).bind fun t₁ h₁ => .ok h₁
    exact (writes_insertRow p positions rows indexes s expressions).mono fun _ => h.trans
  | select select => exact .skip fun output => .ok .refl
  | update update =>
    refine .skip fun schema => .skip fun assignments => .skip fun rows => .skip fun indexes => ?_
    refine Ensures.bind (P := fun s => Writes t s.t) (.foldlM .refl fun s position h => ?_)
      fun s h => .ok h
    exact (writes_updateRow p schema _ assignments indexes s position).mono fun _ => h.trans
  | delete delete =>
    refine .skip fun schema => .skip fun indexes => .skip fun rows => ?_
    refine Ensures.bind (P := fun s => Writes t s.1) (.foldlM .refl fun s row h => ?_)
      fun s h => .ok h
    exact (writes_deleteRow p schema _ indexes s row).mono fun _ => h.trans
  | beginTransaction => exact .error
  | commit => exact .error
  | rollback => exact .error

end

end QuantaDb.Engine
