import QuantaDb.Engine.Typing
import QuantaDb.Engine.Writing
import QuantaDb.Lib.Simulation
import QuantaDb.Mvcc.Footprint

/-!
# QuantaDb.Engine.Session

SQL sessions over the multi-version state.

A session is idle, in a transaction, or in one that has failed; between two steps under the
state lock a call of it may also be on its way through `execute_autocommit` or
`Transaction::commit`.  Several sessions take turns in any order, and index rebuilds come in
between.  A turn ends where the next step under the lock begins: the reads of a statement are
taken together, since an active transaction reads the same at any time, and so are its writes,
which stay in the transaction.  After a conflict `execute_autocommit` may try again, which is a
call of its own here.
-/

namespace QuantaDb.Engine

open Fallible Syntax
open Mvcc (Core)

/-! ## sessions -/

/-- What a call returns. -/
abbrev Result := Except EngineError StatementOutput

/-- `SessionState`, and how far a call has come that has not returned. -/
inductive SessionState where
  | idle
  | active (id : Nat)
  | failed
  /-- `execute_autocommit` has begun a transaction for the statement. -/
  | executing (id : Nat) (statement : Statement)
  /-- `Inner::commit` is about to prepare. -/
  | committing (id : Nat) (output : StatementOutput)
  /-- `Inner::commit` has prepared and writes its pages. -/
  | persisting (id timestamp : Nat) (output : StatementOutput)
  /-- `Transaction::commit` has its result and is about to end the transaction. -/
  | ending (id : Nat) (result : Result)

/-- What a turn leaves of the database and of the session, and the result if the call returns. -/
structure Outcome where
  core : Core
  state : SessionState
  reply : Option Result

/-- A text that does not parse, or one statement of a text that does. -/
inductive Call where
  | syntaxError (message : String)
  | statement (statement : Statement)
deriving DecidableEq, Repr

/-- The call returns an error, and nothing has changed. -/
def refuse (core : Core) (state : SessionState) (error : EngineError) : Option Outcome :=
  some ⟨core, state, some (.error error)⟩

/-- What the engine sees of a transaction: `Inner::read` and the scans at its snapshot. -/
def transactionOf (core : Core) (t : Mvcc.Transaction) : Transaction where
  read key := core.db.read key t.snapshot
  scan start := (Mvcc.Transaction.scanPrefix { t with writes := ∅ } core.db start).toList
  writes := t.writes

/-- The writes that a statement has made enter its transaction. -/
def writeAll (core : Core) (id : Nat) (made : List (Bytes × Option Bytes)) : Option Core :=
  made.foldlM (fun core write => core.write id write.1 write.2) core

namespace SqlSession

section

variable (p : Platform) (core : Core)

/-- `MvccDatabase::begin`, which fails only when the ids have run out. -/
def beginWith (next : Nat → SessionState) (reply : Option Result) : Option Outcome :=
  match core.begin with
  | some begun => some ⟨begun, next core.db.nextTransactionId, reply⟩
  | none => refuse core .idle (.transaction .transactionIdExhausted)

/-- `SqlSession::begin`. -/
def begin : SessionState → Option Outcome
  | .idle => beginWith core .active (some (.ok (.transaction .begun)))
  | .active id => refuse core (.active id) .transactionAlreadyActive
  | .failed => refuse core .failed .transactionAlreadyActive
  | _ => none

/-- `SqlSession::commit`, up to `Inner::commit`. -/
def commit : SessionState → Option Outcome
  | .active id => some ⟨core, .committing id (.transaction .committed), none⟩
  | .failed => refuse core .failed .transactionAborted
  | .idle => refuse core .idle .noActiveTransaction
  | _ => none

/-- `SqlSession::rollback`. -/
def rollback : SessionState → Option Outcome
  | .active id => (core.close id).map fun core =>
    ⟨core, .idle, some (.ok (.transaction .rolledBack))⟩
  | .failed => some ⟨core, .idle, some (.ok (.transaction .rolledBack))⟩
  | .idle => refuse core .idle .noActiveTransaction
  | _ => none

/-- A statement in a transaction: the writes of one that succeeds are kept, the transaction of
one that fails is dropped. -/
def executeIn (id : Nat) (statement : Statement) (next : StatementOutput → SessionState)
    (reply : StatementOutput → Option Result) (dropped : SessionState) : Option Outcome :=
  match core.transactions[id]? with
  | none => none
  | some t =>
    match executeInTransaction p (transactionOf core t) statement with
    | .ok (output, done) => (writeAll core id done.made).map fun core =>
      ⟨core, next output, reply output⟩
    | .error error => (core.close id).map fun core => ⟨core, dropped, some (.error error)⟩

/-- `SqlSession::execute_data_statement`; of `execute_autocommit`, the begin of the
transaction. -/
def executeDataStatement (statement : Statement) : SessionState → Option Outcome
  | .idle => beginWith core (.executing · statement) none
  | .active id => executeIn p core id statement (fun _ => .active id) (some <| .ok ·) .failed
  | .failed => refuse core .failed .transactionAborted
  | _ => none

/-- `SqlSession::execute_statement`. -/
def executeStatement (statement : Statement) (state : SessionState) : Option Outcome :=
  match statement with
  | .beginTransaction => begin core state
  | .commit => commit core state
  | .rollback => rollback core state
  | statement => executeDataStatement p core statement state

/-- `SqlSession::execute` of a text that does not parse. -/
def refuseText (message : String) : SessionState → Option Outcome
  | .active id => (core.close id).map fun core =>
    ⟨core, .failed, some (.error (.syntaxError message))⟩
  | .idle => refuse core .idle (.syntaxError message)
  | .failed => refuse core .failed (.syntaxError message)
  | _ => none

/-- What a session is asked for. -/
def call (call : Call) (state : SessionState) : Option Outcome :=
  match call with
  | .syntaxError message => refuseText core message state
  | .statement statement => executeStatement p core statement state

/-- `Inner::commit`, up to the pages of the commit. -/
def prepare (id : Nat) (output : StatementOutput) : Option Outcome :=
  match core.transactions[id]? with
  | none => none
  | some t =>
    if t.writes.isEmpty then some ⟨core, .ending id (.ok output), none⟩
    else
      match core.db.prepareCommit id t.snapshot t.writes.keys t.scannedPrefixes with
      | .error error => some ⟨core, .ending id (.error (.transaction error)), none⟩
      | .ok (timestamp, _) => (core.prepare id).map fun core =>
        ⟨core, .persisting id timestamp output, none⟩

/-- The next step of a call that has not returned. -/
def proceed : SessionState → Option Outcome
  | .executing id statement => executeIn p core id statement (.committing id) (fun _ => none) .idle
  | .committing id output => prepare core id output
  | .ending id result => ((core.finishClose id).or (core.close id)).map fun core =>
    ⟨core, .idle, some result⟩
  | _ => none

/-- `persist_commit` has named the pages of a commit, or has failed. -/
def persist (pages : Except Mvcc.TransactionError (List PageId)) : SessionState → Option Outcome
  | .persisting id timestamp output =>
    match pages with
    | .ok pageIds => (core.finish timestamp (some pageIds)).map fun core =>
      ⟨core, .ending id (.ok output), none⟩
    | .error error => (core.finish timestamp none).map fun core =>
      ⟨core, .ending id (.error (.transaction error)), none⟩
  | _ => none

end

end SqlSession

/-! ## the system -/

/-- The sessions of a database. -/
structure System where
  core : Core
  sessions : Nat → SessionState

/-- A step of one session, or of an index rebuild. -/
inductive Turn where
  | call (session : Nat) (call : Call)
  | proceed (session : Nat)
  | persist (session : Nat) (pages : Except Mvcc.TransactionError (List PageId))
  | capture
  | publish (build : Nat) (manifestPageId : PageId) (openPage : Option PageId)
  | drop (build : Nat)

namespace System

/-- A database just opened. -/
def start (core : Core) : System := ⟨core, fun _ => .idle⟩

/-- A session takes its turn. -/
def session (s : System) (x : Nat) (outcome : Option Outcome) : Option (System × Option Result) :=
  outcome.map fun outcome =>
    (⟨outcome.core, Function.update s.sessions x outcome.state⟩, outcome.reply)

/-- The index rebuild takes its turn. -/
def rebuild (s : System) (core : Option Core) : Option (System × Option Result) :=
  core.map fun core => ({ s with core }, none)

def step (p : Platform) (s : System) : Turn → Option (System × Option Result)
  | .call x call => s.session x (SqlSession.call p s.core call (s.sessions x))
  | .proceed x => s.session x (SqlSession.proceed p s.core (s.sessions x))
  | .persist x pages => s.session x (SqlSession.persist s.core pages (s.sessions x))
  | .capture => s.rebuild s.core.capture
  | .publish build manifestPageId openPage =>
    s.rebuild (s.core.publish build manifestPageId openPage)
  | .drop build => s.rebuild (s.core.drop build)

/-- Turns one after the other, and what they have returned. -/
abbrev run (p : Platform) : System → List Turn → Option (System × List (Option Result)) :=
  Simulation.run (step p)

end System

/-! ## turns as steps of the core -/

open TreeMaps

/-- The transaction that a session is in. -/
def SessionState.transaction : SessionState → Option Nat
  | .idle | .failed => none
  | .active id | .executing id _ | .committing id _ | .persisting id _ _ | .ending id _ => some id

/-- The transaction of a session is where its state says.  Scans are never protected. -/
def SessionState.Holds (core : Core) : SessionState → Prop
  | .idle | .failed => True
  | .active id | .executing id _ | .committing id _ =>
    ∃ t, core.transactions[id]? = some t ∧ t.scannedPrefixes = []
  | .persisting id timestamp _ => ∃ p, core.prepared[timestamp]? = some p ∧ p.transactionId = id
  | .ending id result => id ∈ core.transactions ∨
      id ∈ core.closing ∧ ∀ e, result = .error e → id ∉ core.committed

/-- What a turn of a session does: steps of the core that are about its own transaction, or
about one that it begins. -/
structure Advances (core : Core) (state : SessionState) (outcome : Outcome) : Prop where
  run : ∃ actions, core.run actions = some outcome.core
  others : ∀ {id}, state.transaction ≠ some id → id < core.db.nextTransactionId →
    Core.Untouched id core outcome.core
  own : ∀ {id}, outcome.state.transaction = some id →
    state.transaction = some id ∨ id = core.db.nextTransactionId
  holds : outcome.state.Holds outcome.core

section

variable {p : Platform} {core core' : Core} {state state' : SessionState} {reply : Option Result}

/-- Another transaction does not matter. -/
theorem SessionState.Holds.congr (h : state.Holds core)
    (hsame : ∀ {id}, state.transaction = some id → Core.Untouched id core core') :
    state.Holds core' := by
  cases state with
  | idle | failed => trivial
  | active id | executing id _ | committing id _ =>
    obtain ⟨t, ht, hscanned⟩ := h
    exact ⟨t, (hsame rfl).transaction.trans ht, hscanned⟩
  | persisting id timestamp output =>
    obtain ⟨p, hp, hid⟩ := h
    exact ⟨p, ((hsame rfl).prepared timestamp p hid).mpr hp, hid⟩
  | ending id result =>
    have hsame := hsame rfl
    refine h.imp (fun hin => ?_) fun hin => ⟨hsame.closing.mpr hin.1, fun e he hmem => ?_⟩
    · rw [mem_iff_get] at hin ⊢
      rwa [hsame.transaction]
    · exact hin.2 e he (hsame.committed.mp hmem)

variable {id : Nat}

/-- The transaction of a session has been given its id. -/
theorem SessionState.Holds.below (hs : Mvcc.Sound core) (h : state.Holds core)
    (hid : state.transaction = some id) : id < core.db.nextTransactionId := by
  have hopen : ∀ {id t}, core.transactions[id]? = some t → id < core.db.nextTransactionId :=
    fun ht => hs.owned.ids _ _ (hs.owned.transactions _ _ ht).2.1
  cases state with
  | idle | failed => cases hid
  | active id | executing id _ | committing id _ =>
    cases hid
    obtain ⟨t, ht, -⟩ := h
    exact hopen ht
  | persisting id timestamp output =>
    cases hid
    obtain ⟨p, hp, rfl⟩ := h
    exact hs.owned.ids _ _ (hs.owned.prepared _ p hp).1
  | ending id result =>
    cases hid
    rcases h with hin | ⟨hin, -⟩
    · obtain ⟨t, ht⟩ := (mem_iff_get _ _).mp hin
      exact hopen ht
    · exact hs.owned.closing id hin

/-- A turn that only changes where the call stands. -/
theorem Advances.stay (hown : ∀ {id}, state'.transaction = some id → state.transaction = some id)
    (hholds : state'.Holds core) : Advances core state ⟨core, state', reply⟩ :=
  ⟨⟨[], rfl⟩, fun _ _ => .refl _ core, fun h => .inl (hown h), hholds⟩

/-- A turn that is one step about the session's transaction. -/
theorem Advances.step (hs : Mvcc.Sound core) (action : Mvcc.Action)
    (hstep : core.step action = some core')
    (hconcerns : ∀ {id}, core.concerns action = some id →
      state.transaction = some id ∨ id = core.db.nextTransactionId)
    (hown : ∀ {id}, state'.transaction = some id →
      state.transaction = some id ∨ id = core.db.nextTransactionId)
    (hholds : state'.Holds core') : Advances core state ⟨core', state', reply⟩ where
  run := ⟨[action], by rw [Core.run_cons, hstep]; rfl⟩
  others hne hlt := .of_step hs hstep fun heq => (hconcerns heq).elim hne (Nat.ne_of_lt hlt)
  own := hown
  holds := hholds

/-- The transaction is ended. -/
theorem Advances.close (hs : Mvcc.Sound core) (hid : state.transaction = some id)
    (hclose : core.close id = some core') (hnone : state'.transaction = none)
    (hholds : state'.Holds core') : Advances core state ⟨core', state', reply⟩ := by
  refine .step hs (.close id) hclose (fun h => .inl ?_) (fun h => ?_) hholds
  · exact hid.trans h
  · rw [hnone] at h
    cases h

variable {t : Mvcc.Transaction}

/-- One write of a size that is accepted. -/
theorem write_eq {key : Bytes} {value : Option Bytes} (ht : core.transactions[id]? = some t)
    (hsize : Mvcc.validateSize key value = .ok ()) :
    ∃ transactions, core.write id key value = some { core with transactions } ∧
      transactions[id]? = some { t with writes := t.writes.insert key value } ∧
      ∀ id', id ≠ id' → transactions[id']? = core.transactions[id']? := by
  refine ⟨core.transactions.insert id { t with writes := t.writes.insert key value }, ?_, ?_, ?_⟩
  · simp [Core.write, ht, Mvcc.Transaction.write, hsize, Except.map]
  · rw [get_insert, if_pos rfl]
  · intro id' hne
    rw [get_insert, if_neg hne]

/-- What the writes of a statement do to the core. -/
theorem writeAll_eq {made : List (Bytes × Option Bytes)} (ht : core.transactions[id]? = some t)
    (hsizes : ∀ write ∈ made, Mvcc.validateSize write.1 write.2 = .ok ()) :
    ∃ transactions, writeAll core id made = some { core with transactions } ∧
      transactions[id]? = some { t with
        writes := made.foldl (fun writes write => writes.insert write.1 write.2) t.writes } ∧
      ∀ id', id ≠ id' → transactions[id']? = core.transactions[id']? := by
  induction made generalizing core t with
  | nil => exact ⟨core.transactions, rfl, ht, fun _ _ => rfl⟩
  | cons write made ih =>
    obtain ⟨first, hwrite, hown, hothers⟩ := write_eq ht (hsizes write List.mem_cons_self)
    obtain ⟨transactions, hall, hown', hothers'⟩ := @ih { core with transactions := first } _ hown
      fun other hother => hsizes other (List.mem_cons_of_mem _ hother)
    refine ⟨transactions, ?_, hown', fun id' hne => (hothers' id' hne).trans (hothers id' hne)⟩
    rw [writeAll, List.foldlM_cons, hwrite]
    exact hall

/-- The writes of a statement are steps of the core. -/
theorem writeAll_run (core : Core) (id : Nat) (made : List (Bytes × Option Bytes)) :
    writeAll core id made = core.run (made.map fun write => .write id write.1 write.2) := by
  rw [writeAll, Core.run, List.foldlM_map]
  rfl

variable {statement : Statement}

/-- A statement that succeeds leaves its writes in the transaction, and that is all. -/
theorem writeAll_of_execute {output : StatementOutput} {done : Transaction}
    (ht : core.transactions[id]? = some t)
    (hdone : executeInTransaction p (transactionOf core t) statement = .ok (output, done)) :
    ∃ transactions, writeAll core id done.made = some { core with transactions } ∧
      transactions[id]? = some { t with writes := done.writes } ∧
      ∀ id', id ≠ id' → transactions[id']? = core.transactions[id']? := by
  obtain ⟨made, hsizes, hmade⟩ := (writes_of_execute p _ statement _ hdone).made
  have hlast : done.made = made := congrArg Transaction.made hmade
  have hwrites : done.writes = made.foldl (fun writes write => writes.insert write.1 write.2)
      t.writes := congrArg Transaction.writes hmade
  rw [hlast, hwrites]
  exact writeAll_eq ht hsizes

/-- What the engine scans is what `Transaction::scan_prefix` answers. -/
theorem scanPrefix_transactionOf (core : Core) (t : Mvcc.Transaction) (start : Bytes) :
    (transactionOf core t).scanPrefix start = (t.scanPrefix core.db start).toList := by
  refine toList_eq Std.TreeMap.ordered_keys_toList fun key value => ?_
  rw [Std.TreeMap.mem_toList_iff_getElem?_eq_some, Mvcc.Transaction.scanPrefix_get,
    Mvcc.Transaction.get_foldl_own t.writes, transactionOf, get_ofList_toList,
    Mvcc.Transaction.scanPrefix_get]
  · have hown : key ∈ (t.writes.toList.filter fun write => start.isPrefixOf write.1).map Prod.fst ↔
        start <+: key ∧ ∃ w, t.writes[key]? = some w := by
      simp [Std.TreeMap.mem_toList_iff_getElem?_eq_some, and_comm]
    by_cases hkey : start <+: key
    · cases hw : t.writes[key]? with
      | none => simp [hown, hkey, hw, Mvcc.overlay]
      | some w => simp [hown, hkey, hw, Mvcc.overlay]
    · simp [hown, hkey]
  · intro write hmem
    exact Std.TreeMap.mem_toList_iff_getElem?_eq_some.mp (List.mem_of_mem_filter hmem)

/-! ## every turn advances -/

variable {outcome : Outcome}

/-- A statement in the session's transaction. -/
theorem Advances.execute (hs : Mvcc.Sound core) (hid : state.transaction = some id)
    (hholds : ∃ t, core.transactions[id]? = some t ∧ t.scannedPrefixes = [])
    {next : StatementOutput → SessionState} {reply : StatementOutput → Option Result}
    {dropped : SessionState}
    (h : SqlSession.executeIn p core id statement next reply dropped = some outcome)
    (hnext : ∀ output, (next output).transaction = some id)
    (hkept : ∀ output core, (∃ t, core.transactions[id]? = some t ∧ t.scannedPrefixes = []) →
      (next output).Holds core) (hdropped : dropped.transaction = none)
    (hdropped' : ∀ core, dropped.Holds core) :
    Advances core state outcome := by
  obtain ⟨t, ht, hscanned⟩ := hholds
  simp only [SqlSession.executeIn, ht] at h
  split at h
  · next output done hdone =>
    obtain ⟨transactions, hall, hown, hothers⟩ := writeAll_of_execute ht hdone
    rw [hall, Option.map_some, Option.some.injEq] at h
    subst h
    refine ⟨⟨_, (writeAll_run core id done.made).symm.trans hall⟩, fun hne _ => ?_,
      fun h => .inl ?_, hkept output _ ⟨_, hown, hscanned⟩⟩
    · exact .of_eq rfl (hothers _ fun heq => hne (heq ▸ hid)) rfl Iff.rfl rfl
    · exact hid.trans ((hnext output).symm.trans h)
  · obtain ⟨core', hclose, rfl⟩ := Option.map_eq_some_iff.mp h
    exact .close hs hid hclose hdropped (hdropped' core')

/-- A session that is asked for nothing it can do stays as it is. -/
theorem Advances.refuse {error : EngineError} (hholds : state.Holds core)
    (h : Engine.refuse core state error = some outcome) : Advances core state outcome := by
  cases h
  exact .stay id hholds

/-- A session begins a transaction. -/
theorem Advances.begin (hs : Mvcc.Sound core) {next : Nat → SessionState}
    (h : SqlSession.beginWith core next reply = some outcome)
    (hnext : ∀ id, (next id).transaction = some id)
    (hholds : ∀ id core, (∃ t, core.transactions[id]? = some t ∧ t.scannedPrefixes = []) →
      (next id).Holds core) : Advances core .idle outcome := by
  unfold SqlSession.beginWith at h
  split at h
  · next begun hbegin =>
    cases h
    refine .step hs .begin hbegin (fun h => .inr ?_) (fun h => .inr ?_)
      (hholds _ _ ?_)
    · exact (Option.some.inj h).symm
    · exact Option.some.inj (h.symm.trans (hnext _))
    · rw [Core.begin_eq hbegin]
      exact ⟨_, by rw [get_insert, if_pos rfl], rfl⟩
  · exact .refuse trivial h

/-- The transaction of the session is closed. -/
theorem Advances.closed (hs : Mvcc.Sound core) (hid : state.transaction = some id)
    (h : (core.close id).map (fun core => (⟨core, state', reply⟩ : Outcome)) = some outcome)
    (hnone : state'.transaction = none) (hholds : ∀ core, state'.Holds core) :
    Advances core state outcome := by
  obtain ⟨core', hclose, rfl⟩ := Option.map_eq_some_iff.mp h
  exact .close hs hid hclose hnone (hholds core')

theorem advances_data (hs : Mvcc.Sound core) (hholds : state.Holds core)
    (h : SqlSession.executeDataStatement p core statement state = some outcome) :
    Advances core state outcome := by
  cases state with
  | idle =>
    simp only [SqlSession.executeDataStatement] at h
    exact .begin hs h (fun _ => rfl) fun _ _ h => h
  | failed => exact .refuse hholds h
  | active id =>
    exact .execute hs rfl hholds h (fun _ => rfl) (fun _ _ h => h) rfl fun _ => trivial
  | _ => cases h

/-- Whatever a session is asked for. -/
theorem advances_call (hs : Mvcc.Sound core) (hholds : state.Holds core) {call : Call}
    (h : SqlSession.call p core call state = some outcome) :
    Advances core state outcome := by
  cases call with
  | syntaxError message =>
    cases state with
    | active id => exact .closed hs rfl h rfl fun _ => trivial
    | idle | failed => exact .refuse hholds h
    | _ => cases h
  | statement statement =>
    cases statement with
    | beginTransaction =>
      cases state with
      | idle => exact .begin hs h (fun _ => rfl) fun _ _ h => h
      | active id | failed => exact .refuse hholds h
      | _ => cases h
    | commit =>
      cases state with
      | active id =>
        cases h
        exact .stay (fun h => h) hholds
      | idle | failed => exact .refuse hholds h
      | _ => cases h
    | rollback =>
      cases state with
      | active id => exact .closed hs rfl h rfl fun _ => trivial
      | failed =>
        cases h
        exact .stay (fun h => h) trivial
      | idle => exact .refuse hholds h
      | _ => cases h
    | _ => exact advances_data hs hholds h

/-- A call that has not returned goes on. -/
theorem advances_proceed (hs : Mvcc.Sound core) (hholds : state.Holds core)
    (h : SqlSession.proceed p core state = some outcome) : Advances core state outcome := by
  cases state with
  | executing id statement =>
    exact .execute hs rfl hholds h (fun _ => rfl) (fun _ _ h => h) rfl fun _ => trivial
  | committing id output =>
    obtain ⟨t, ht, -⟩ := hholds
    have hin := (mem_iff_get _ _).mpr ⟨t, ht⟩
    simp only [SqlSession.proceed, SqlSession.prepare, ht] at h
    split at h
    · cases h
      exact .stay (fun h => h) (.inl hin)
    · split at h
      · cases h
        exact .stay (fun h => h) (.inl hin)
      · next timestamp db hprepare =>
        obtain ⟨core', hstep, rfl⟩ := Option.map_eq_some_iff.mp h
        obtain ⟨-, rfl, -⟩ := Mvcc.State.prepareCommit_eq_ok hprepare
        refine .step hs (.prepare id) hstep .inl .inl ?_
        obtain ⟨t', -, -, rfl⟩ := Core.prepare_eq hstep
        exact ⟨_, by rw [get_insert, if_pos rfl], rfl⟩
  | ending id result =>
    obtain ⟨core', hend, rfl⟩ := Option.map_eq_some_iff.mp h
    rcases Option.or_eq_some_iff.mp hend with hclose | ⟨-, hclose⟩
    · exact .step hs (.finishClose id) hclose .inl (fun h => by cases h) trivial
    · exact .close hs rfl hclose rfl trivial
  | _ => cases h

/-- A commit has its pages, or has none. -/
theorem advances_persist (hs : Mvcc.Sound core) (hholds : state.Holds core)
    {pages : Except Mvcc.TransactionError (List PageId)}
    (h : SqlSession.persist core pages state = some outcome) : Advances core state outcome := by
  cases state with
  | persisting id timestamp output =>
    obtain ⟨p, hp, rfl⟩ := hholds
    have hown : ∀ {id'}, core.prepared[timestamp]?.map Mvcc.Prepared.transactionId = some id' →
        some p.transactionId = some id' := by
      rw [hp]
      exact id
    cases pages with
    | ok pageIds =>
      obtain ⟨core', hfinish, rfl⟩ := Option.map_eq_some_iff.mp h
      refine .step hs (.finish timestamp pageIds) hfinish (fun h => .inl (hown h)) .inl
        (.inr ⟨?_, fun e he => by cases he⟩)
      obtain ⟨p', hp', -, rfl⟩ := hs.finish_eq hfinish
      rw [hp, Option.some.injEq] at hp'
      exact (mem_insert_set _ _ _).mpr (.inl (congrArg _ hp'.symm))
    | error error =>
      obtain ⟨core', hfinish, rfl⟩ := Option.map_eq_some_iff.mp h
      refine .step hs (.abandon timestamp) hfinish (fun h => .inl (hown h)) .inl
        (.inr ⟨?_, fun e _ hmem => ?_⟩)
      · obtain ⟨p', hp', -, rfl⟩ := hs.finish_eq hfinish
        rw [hp, Option.some.injEq] at hp'
        exact (mem_insert_set _ _ _).mpr (.inl (congrArg _ hp'.symm))
      · obtain ⟨p', hp', -, rfl⟩ := hs.finish_eq hfinish
        -- a commit under way is not one that is finished
        obtain ⟨f, hf, hid⟩ := List.mem_map.mp hmem
        obtain ⟨hf, hpublished⟩ := List.mem_filter.mp hf
        rcases List.mem_append.mp hf with hf | hf
        · exact (hs.owned.past f hf).2.2 timestamp p hp hid.symm
        · rw [List.mem_singleton.mp hf] at hpublished
          cases hpublished
  | _ => cases h

end

/-! ## runs -/

/-- The session whose turn it is. -/
def Turn.session : Turn → Option Nat
  | .call x _ | .proceed x | .persist x _ => some x
  | .capture | .publish _ _ _ | .drop _ => none

namespace System

variable {p : Platform} {s s' s'' : System} {turn : Turn} {reply : Option Result}

/-- The sessions are in different transactions of a database that is in use. -/
structure Proper (s : System) : Prop where
  reachable : s.core.Reachable
  holds : ∀ x, (s.sessions x).Holds s.core
  apart : ∀ {x y id}, (s.sessions x).transaction = some id →
    (s.sessions y).transaction = some id → x = y

/-- A session has taken its turn. -/
structure Took (s s' : System) (x : Nat) (outcome : Outcome) : Prop where
  core : s'.core = outcome.core
  own : s'.sessions x = outcome.state
  others : ∀ {y}, y ≠ x → s'.sessions y = s.sessions y

theorem session_eq {x : Nat} {outcome : Option Outcome}
    (h : s.session x outcome = some (s', reply)) :
    ∃ o, outcome = some o ∧ s.Took s' x o ∧ reply = o.reply := by
  obtain ⟨o, ho, heq⟩ := Option.map_eq_some_iff.mp h
  cases heq
  exact ⟨o, ho, ⟨rfl, Function.update_self _ _ _, fun hne => Function.update_of_ne hne _ _⟩, rfl⟩

/-- What a turn does: its session advances, or the index rebuild does. -/
theorem step_cases (h : s.step p turn = some (s', reply)) :
    (∃ x outcome, turn.session = some x ∧ s.Took s' x outcome ∧
      (Mvcc.Sound s.core → (s.sessions x).Holds s.core →
        Advances s.core (s.sessions x) outcome)) ∨
    (∃ action, turn.session = none ∧ s.core.concerns action = none ∧
      s.core.step action = some s'.core ∧ s'.sessions = s.sessions) := by
  have hrebuild : ∀ action {core}, s.core.concerns action = none → core = s.core.step action →
      s.rebuild core = some (s', reply) → ∃ action, s.core.concerns action = none ∧
        s.core.step action = some s'.core ∧ s'.sessions = s.sessions := by
    intro action core hconcerns hstep h
    obtain ⟨core', hcore, heq⟩ := Option.map_eq_some_iff.mp h
    cases heq
    exact ⟨action, hconcerns, hstep ▸ hcore, rfl⟩
  cases turn with
  | call x call =>
    obtain ⟨outcome, hcall, htook, -⟩ := session_eq h
    exact .inl ⟨x, outcome, rfl, htook, fun hs hholds => advances_call hs hholds hcall⟩
  | proceed x =>
    obtain ⟨outcome, hproceed, htook, -⟩ := session_eq h
    exact .inl ⟨x, outcome, rfl, htook, fun hs hholds => advances_proceed hs hholds hproceed⟩
  | persist x pages =>
    obtain ⟨outcome, hpersist, htook, -⟩ := session_eq h
    exact .inl ⟨x, outcome, rfl, htook, fun hs hholds => advances_persist hs hholds hpersist⟩
  | capture =>
    obtain ⟨action, hstep⟩ := hrebuild .capture rfl rfl h
    exact .inr ⟨action, rfl, hstep⟩
  | publish build manifestPageId openPage =>
    obtain ⟨action, hstep⟩ := hrebuild (.publish build manifestPageId openPage) rfl rfl h
    exact .inr ⟨action, rfl, hstep⟩
  | drop build =>
    obtain ⟨action, hstep⟩ := hrebuild (.drop build) rfl rfl h
    exact .inr ⟨action, rfl, hstep⟩

/-- A turn is steps of the core. -/
theorem Proper.run_core (hproper : s.Proper) (h : s.step p turn = some (s', reply)) :
    ∃ actions, s.core.run actions = some s'.core := by
  rcases step_cases h with ⟨x, outcome, -, htook, hadvances⟩ | ⟨action, -, -, hstep, -⟩
  · rw [htook.core]
    exact (hadvances hproper.reachable.sound (hproper.holds x)).run
  · exact ⟨[action], by rw [Core.run_cons, hstep]; rfl⟩

/-- The other sessions are where they were, and so are their transactions. -/
theorem Proper.others (hproper : s.Proper) (h : s.step p turn = some (s', reply)) {y : Nat}
    (hy : turn.session ≠ some y) : s'.sessions y = s.sessions y ∧
      ∀ {id}, (s.sessions y).transaction = some id → Core.Untouched id s.core s'.core := by
  have hsound := hproper.reachable.sound
  rcases step_cases h with ⟨x, outcome, hx, htook, hadvances⟩ | ⟨action, -, hconcerns, hstep, hsame⟩
  · have hne : y ≠ x := fun heq => hy (heq ▸ hx)
    refine ⟨htook.others hne, fun hid => htook.core ▸ ?_⟩
    exact (hadvances hsound (hproper.holds x)).others (fun hx => hne (hproper.apart hid hx))
      ((hproper.holds y).below hsound hid)
  · exact ⟨congrFun hsame y, fun _ => .of_step hsound hstep (by rw [hconcerns]; simp)⟩

/-- A transaction that the session is in after its turn was its own or is new. -/
theorem Proper.own (hproper : s.Proper) (h : s.step p turn = some (s', reply)) {x id : Nat}
    (hid : (s'.sessions x).transaction = some id) :
    (s.sessions x).transaction = some id ∨
      id = s.core.db.nextTransactionId ∧ turn.session = some x := by
  by_cases hx : turn.session = some x
  · rcases step_cases h with ⟨y, outcome, hy, htook, hadvances⟩ | ⟨action, hnone, -⟩
    · obtain rfl := Option.some.inj (hx.symm.trans hy)
      rw [htook.own] at hid
      exact ((hadvances hproper.reachable.sound (hproper.holds x)).own hid).imp_right
        fun h => ⟨h, hx⟩
    · rw [hx] at hnone
      cases hnone
  · rw [(hproper.others h hx).1] at hid
    exact .inl hid

/-- **One turn** keeps the sessions in order. -/
theorem Proper.step (hproper : s.Proper) (h : s.step p turn = some (s', reply)) : s'.Proper := by
  have hsound := hproper.reachable.sound
  obtain ⟨actions, hrun⟩ := hproper.run_core h
  have hbelow : ∀ {x id}, (s.sessions x).transaction = some id → id ≠ s.core.db.nextTransactionId :=
    fun hid => Nat.ne_of_lt ((hproper.holds _).below hsound hid)
  refine ⟨hproper.reachable.run hrun, fun x => ?_, fun {x y id} hx hy => ?_⟩
  · by_cases hx : turn.session = some x
    · rcases step_cases h with ⟨y, outcome, hy, htook, hadvances⟩ | ⟨action, hnone, -⟩
      · obtain rfl := Option.some.inj (hx.symm.trans hy)
        rw [htook.own, htook.core]
        exact (hadvances hsound (hproper.holds x)).holds
      · rw [hx] at hnone
        cases hnone
    · rw [(hproper.others h hx).1]
      exact (hproper.holds x).congr (hproper.others h hx).2
  · -- only the session whose turn it was can be in a new transaction
    rcases hproper.own h hx with hx' | ⟨rfl, hx'⟩
    · rcases hproper.own h hy with hy' | ⟨rfl, -⟩
      · exact hproper.apart hx' hy'
      · exact absurd rfl (hbelow hx')
    · rcases hproper.own h hy with hy' | ⟨-, hy'⟩
      · exact absurd rfl (hbelow hy')
      · exact Option.some.inj (hx'.symm.trans hy')

theorem proper_start {core : Core} (h : core.Opened) : (start core).Proper :=
  ⟨⟨core, [], h, rfl⟩, fun _ => trivial, fun h => by cases h⟩

/-- Whatever sessions do. -/
theorem proper_run {core : Core} (hopened : core.Opened) {turns : List Turn}
    {replies : List (Option Result)} (h : (start core).run p turns = some (s, replies)) :
    s.Proper :=
  Simulation.run_invariant Proper (fun _ hproper hstep => hproper.step hstep)
    (proper_start hopened) h

end System

/-! ## transactions that failed -/

section

variable {p : Platform} {core : Core} {state : SessionState} {outcome : Outcome} {id : Nat}
  {e : EngineError}

/-- A statement that fails ends its transaction. -/
theorem over_of_execute (hs : Mvcc.Sound core) {statement : Statement}
    {next : StatementOutput → SessionState} {reply : StatementOutput → Option Result}
    {dropped : SessionState}
    (h : SqlSession.executeIn p core id statement next reply dropped = some outcome)
    (hreply : ∀ output, reply output ≠ some (.error e)) (herror : outcome.reply = some (.error e)) :
    Core.Over id outcome.core ∧ outcome.state = dropped := by
  unfold SqlSession.executeIn at h
  split at h
  · cases h
  · split at h
    · obtain ⟨core', -, rfl⟩ := Option.map_eq_some_iff.mp h
      exact absurd herror (hreply _)
    · obtain ⟨core', hclose, rfl⟩ := Option.map_eq_some_iff.mp h
      exact ⟨.of_close hs hclose, rfl⟩

/-- An error in a transaction ends it, unless it is that of a second BEGIN. -/
theorem over_of_call (hs : Mvcc.Sound core) {call : Call}
    (hbegin : call ≠ .statement .beginTransaction)
    (h : SqlSession.call p core call (.active id) = some outcome)
    (herror : outcome.reply = some (.error e)) :
    Core.Over id outcome.core ∧ outcome.state = .failed := by
  cases call with
  | syntaxError message =>
    obtain ⟨core', hclose, rfl⟩ := Option.map_eq_some_iff.mp h
    exact ⟨.of_close hs hclose, rfl⟩
  | statement statement =>
    cases statement with
    | beginTransaction => exact absurd rfl hbegin
    | commit =>
      cases h
      cases herror
    | rollback =>
      obtain ⟨core', -, rfl⟩ := Option.map_eq_some_iff.mp h
      cases herror
    | _ => exact over_of_execute hs h (fun _ => by simp) herror

/-- A session that is in a transaction takes calls if it is at rest there. -/
theorem active_of_call {call : Call} (hid : state.transaction = some id)
    (h : SqlSession.call p core call state = some outcome) : state = .active id := by
  cases state with
  | idle | failed => cases hid
  | active id' =>
    cases hid
    rfl
  | _ =>
    cases call with
    | syntaxError message => cases h
    | statement statement => cases statement <;> cases h

/-- So does one on the way of a call that commits. -/
theorem over_of_proceed (hs : Mvcc.Sound core) (hholds : state.Holds core)
    (hid : state.transaction = some id) (h : SqlSession.proceed p core state = some outcome)
    (herror : outcome.reply = some (.error e)) : Core.Over id outcome.core := by
  cases state with
  | executing id statement =>
    cases hid
    exact (over_of_execute hs h (fun _ => by simp) herror).1
  | committing id output =>
    simp only [SqlSession.proceed, SqlSession.prepare] at h
    split at h
    · cases h
    · split at h
      · cases h
        cases herror
      · split at h
        · cases h
          cases herror
        · obtain ⟨core', -, rfl⟩ := Option.map_eq_some_iff.mp h
          cases herror
  | ending id result =>
    cases hid
    obtain ⟨core', hend, rfl⟩ := Option.map_eq_some_iff.mp h
    rcases Option.or_eq_some_iff.mp hend with hclose | ⟨-, hclose⟩
    · obtain ⟨hin, rfl⟩ := Core.finishClose_eq hclose
      rcases hholds with hopen | ⟨-, hlost⟩
      · obtain ⟨t, ht⟩ := (mem_iff_get _ _).mp hopen
        exact absurd hin (hs.owned.transactions id t ht).2.2.1
      · refine ⟨hs.owned.closing id hin, ?_, fun x p hp heq => ?_, hlost e (Option.some.inj herror)⟩
        · cases ht : core.transactions[id]? with
          | none => rfl
          | some t => exact absurd hin (hs.owned.transactions id t ht).2.2.1
        · exact (hs.owned.prepared x p hp).2.2.1 (heq ▸ hin)
    · exact .of_close hs hclose
  | _ => cases h

/-- A call does not return with the pages of its commit. -/
theorem reply_persist {pages : Except Mvcc.TransactionError (List PageId)}
    (h : SqlSession.persist core pages state = some outcome) : outcome.reply = none := by
  cases state with
  | persisting id timestamp output =>
    cases pages <;> obtain ⟨core', -, rfl⟩ := Option.map_eq_some_iff.mp h <;> rfl
  | _ => cases h

/-- A failed session refuses everything but ROLLBACK. -/
theorem call_failed {call : Call} (hcall : call ≠ .statement .rollback) :
    ∃ e, SqlSession.call p core call .failed = some ⟨core, .failed, some (.error e)⟩ := by
  cases call with
  | syntaxError message => exact ⟨_, rfl⟩
  | statement statement =>
    cases statement with
    | rollback => exact absurd rfl hcall
    | _ => exact ⟨_, rfl⟩

end

namespace System

variable {p : Platform} {s s' s'' : System} {turn : Turn} {reply : Option Result} {x id : Nat}
  {e : EngineError}

/-- After an error in a transaction it is over, unless the error is that of a second BEGIN. -/
theorem Proper.over (hproper : s.Proper) (hid : (s.sessions x).transaction = some id)
    (hx : turn.session = some x) (hbegin : turn ≠ .call x (.statement .beginTransaction))
    (h : s.step p turn = some (s', some (.error e))) :
    Core.Over id s'.core ∧ ∀ call, turn = .call x call → s'.sessions x = .failed := by
  have hs := hproper.reachable.sound
  cases turn with
  | call y call =>
    cases hx
    obtain ⟨outcome, hcall, htook, herror⟩ := session_eq h
    rw [htook.core, htook.own]
    rw [active_of_call hid hcall] at hcall
    have hover := over_of_call hs (fun heq => hbegin (heq ▸ rfl)) hcall herror.symm
    exact ⟨hover.1, fun _ _ => hover.2⟩
  | proceed y =>
    cases hx
    obtain ⟨outcome, hproceed, htook, herror⟩ := session_eq h
    rw [htook.core]
    exact ⟨over_of_proceed hs (hproper.holds x) hid hproceed herror.symm, fun _ heq => by cases heq⟩
  | persist y pages =>
    obtain ⟨outcome, hpersist, -, herror⟩ := session_eq h
    rw [reply_persist hpersist] at herror
    cases herror
  | _ => cases hx

/-- What a failed session is asked for changes nothing, except for ROLLBACK. -/
theorem step_failed (hx : s.sessions x = .failed) {call : Call}
    (hcall : call ≠ .statement .rollback) :
    ∃ e, s.step p (.call x call) = some (s, some (.error e)) := by
  obtain ⟨e, he⟩ := call_failed hcall
  refine ⟨e, ?_⟩
  rw [step, hx, he, session, Option.map_some, ← hx, Function.update_eq_self]

/-- A session stays failed until it rolls back. -/
theorem failed_step (hproper : s.Proper) (hx : s.sessions x = .failed)
    (hturn : turn ≠ .call x (.statement .rollback)) (h : s.step p turn = some (s', reply)) :
    s'.sessions x = .failed := by
  by_cases hsession : turn.session = some x
  · cases turn with
    | call y call =>
      cases hsession
      obtain ⟨e, he⟩ := step_failed hx (fun heq => hturn (heq ▸ rfl))
      rw [he] at h
      cases h
      exact hx
    | proceed y =>
      cases hsession
      rw [step, hx] at h
      cases h
    | persist y pages =>
      cases hsession
      rw [step, hx] at h
      cases h
    | _ => cases hsession
  · rw [(hproper.others h hsession).1, hx]

/-- **A failed transaction never commits.**  Whatever sessions have done before and do after,
if a call returns an error to a session in a transaction, other than that of a second BEGIN, the
transaction never commits.  Unless the call was COMMIT or a statement outside of BEGIN and
COMMIT, the session then refuses everything until ROLLBACK and leaves the database alone. -/
theorem failed_transaction_never_commits (p : Platform) {core : Core} (hopened : core.Opened)
    {before after : List Turn} {s s' s'' : System} {replies replies' : List (Option Result)}
    {x id : Nat} {turn : Turn} {e : EngineError}
    (hbefore : (start core).run p before = some (s, replies))
    (hid : (s.sessions x).transaction = some id) (hx : turn.session = some x)
    (hbegin : turn ≠ .call x (.statement .beginTransaction))
    (herror : s.step p turn = some (s', some (.error e)))
    (hafter : s'.run p after = some (s'', replies')) :
    id ∉ s''.core.committed ∧
      ∀ call, turn = .call x call → (∀ later ∈ after, later ≠ .call x (.statement .rollback)) →
        ∀ call, call ≠ .statement .rollback →
          ∃ e', s''.step p (.call x call) = some (s'', some (.error e')) := by
  have hproper := proper_run hopened hbefore
  obtain ⟨hover, hfailed⟩ := hproper.over hid hx hbegin herror
  have hproper' := hproper.step herror
  constructor
  · refine (Simulation.run_invariant (fun s => s.Proper ∧ Core.Over id s.core)
      (fun {s turn s' reply} _ h hstep => ?_) ⟨hproper', hover⟩ hafter).2.lost
    obtain ⟨actions, hrun⟩ := h.1.run_core hstep
    exact ⟨h.1.step hstep, h.2.run h.1.reachable.sound hrun⟩
  · intro call hturn hlater
    have hstays := Simulation.run_invariant (fun s => s.Proper ∧ s.sessions x = .failed)
      (fun hturn h hstep => ⟨h.1.step hstep, failed_step h.1 h.2 (hlater _ hturn) hstep⟩)
      ⟨hproper', hfailed call hturn⟩ hafter
    exact fun call hcall => step_failed hstays.2 hcall

/-- A statement that commits by itself: it begins, executes, prepares, has its pages and ends. -/
def autocommitted (x : Nat) (statement : Statement) (pageIds : List PageId) : List Turn :=
  [.call x (.statement statement), .proceed x, .proceed x, .persist x (.ok pageIds), .proceed x]

/-- `CREATE TABLE a (k BIGINT PRIMARY KEY, n BIGINT UNIQUE)`. -/
def createAccounts : Statement :=
  .createTable ⟨⟨"a", false⟩, false, [⟨⟨"k", false⟩, .int64, false, true, false⟩,
    ⟨⟨"n", false⟩, .int64, true, false, true⟩]⟩

/-- `INSERT INTO a VALUES (k, n)`. -/
def insertAccount (k n : Int64) : Statement :=
  .insert ⟨⟨"a", false⟩, [], [[.literal (.integer k), .literal (.integer n)]]⟩

/-- The table can be stored, and two rows for it. -/
def accountsPlatform : Platform :=
  plainPlatform [⟨1, 1, "a", [⟨"k", .int64, false, true, false⟩, ⟨"n", .int64, true, false, true⟩],
    some 0, 1⟩] [[.integer 1, .integer 10], [.integer 2, .integer 20]]

/-- A table, and a transaction on it with one row. -/
def openTransaction : List Turn :=
  autocommitted 0 createAccounts [0, 0] ++
    [.call 0 (.statement .beginTransaction), .call 0 (.statement (insertAccount 1 10))]

/-- The second row has the key of the first. -/
theorem failed_transaction_accounts : ∃ s s' s'' replies replies',
    (start { db := {} }).run accountsPlatform openTransaction = some (s, replies) ∧
    (s.sessions 0).transaction = some 2 ∧
    s.step accountsPlatform (.call 0 (.statement (insertAccount 1 20))) =
      some (s', some (.error (.constraintViolation "duplicate value for unique column k"))) ∧
    s'.run accountsPlatform [.call 0 (.statement .commit)] = some (s'', replies') ∧
    2 ∉ s''.core.committed := by
  obtain ⟨⟨s, replies⟩, hbefore⟩ : ∃ done,
      (start { db := {} }).run accountsPlatform openTransaction = some done :=
    Option.isSome_iff_exists.mp (by decide +kernel)
  have hid : ((start { db := {} }).run accountsPlatform openTransaction).bind
      (fun done => (done.1.sessions 0).transaction) = some 2 := by decide +kernel
  have herror : (((start { db := {} }).run accountsPlatform openTransaction).bind fun done =>
      (done.1.step accountsPlatform (.call 0 (.statement (insertAccount 1 20)))).map Prod.snd) =
      some (some (.error (.constraintViolation "duplicate value for unique column k"))) := by
    decide +kernel
  have hafter : (((start { db := {} }).run accountsPlatform openTransaction).bind fun done =>
      (done.1.step accountsPlatform (.call 0 (.statement (insertAccount 1 20)))).bind fun next =>
        next.1.run accountsPlatform [.call 0 (.statement .commit)]).isSome = true := by
    decide +kernel
  rw [hbefore, Option.bind_some] at hid herror hafter
  obtain ⟨⟨s', reply⟩, hstep, rfl⟩ := Option.map_eq_some_iff.mp herror
  rw [hstep, Option.bind_some] at hafter
  obtain ⟨⟨s'', replies'⟩, hrun⟩ := Option.isSome_iff_exists.mp hafter
  exact ⟨s, s', s'', replies, replies', hbefore, hid, hstep, hrun,
    (failed_transaction_never_commits accountsPlatform Core.opened_empty hbefore hid rfl
      (by simp [insertAccount]) hstep hrun).1⟩

end System

end QuantaDb.Engine
