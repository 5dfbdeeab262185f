import QuantaDb.Engine.Session

/-!
# QuantaDb.Engine.Recorded

What is committed is what sessions have asked for.

Beside the sessions it is recorded which statements have succeeded in each transaction, going by
what the sessions were asked and have answered alone.  Whatever the sessions do, an open
transaction is where these statements lead, executed one after the other on the content that was
committed at its snapshot; and so are the writes of every commit.
-/

namespace QuantaDb.Engine

open Fallible Syntax TreeMaps
open Mvcc (Core Versions valueAt)

/-! ## content -/

/-- A key enters the content with its value at a snapshot. -/
def addAt (H : Versions) (snapshot : Nat) (content : Content) (key : Bytes) : Content :=
  match valueAt H key snapshot with
  | some value => content.insert key value
  | none => content

/-- What is committed at a snapshot. -/
def contentAt (H : Versions) (snapshot : Nat) : Content :=
  (H.map Prod.fst).foldl (addAt H snapshot) ∅

theorem get_foldl_addAt (H : Versions) (snapshot : Nat) (keys : List Bytes) (content : Content)
    (key : Bytes) : (keys.foldl (addAt H snapshot) content)[key]? =
      if key ∈ keys then (valueAt H key snapshot).or content[key]? else content[key]? := by
  induction keys generalizing content with
  | nil => rfl
  | cons first keys ih =>
    have hadd : (addAt H snapshot content first)[key]? =
        if first = key then (valueAt H key snapshot).or content[key]? else content[key]? := by
      unfold addAt
      by_cases heq : first = key
      · subst heq
        cases valueAt H first snapshot <;> simp
      · cases valueAt H first snapshot <;> simp [get_insert, heq]
    rw [List.foldl_cons, ih, hadd]
    by_cases heq : first = key
    · subst heq
      cases valueAt H first snapshot <;> simp
    · simp [heq, Ne.symm heq]

/-- The content of a snapshot has the committed values. -/
theorem get_contentAt (H : Versions) (snapshot : Nat) (key : Bytes) :
    (contentAt H snapshot)[key]? = valueAt H key snapshot := by
  rw [contentAt, get_foldl_addAt]
  split
  · simp
  · next hkey =>
    have hnone : Mvcc.newestAt H key snapshot = none :=
      Mvcc.newestAt_eq_none.mpr fun v hv => absurd (List.mem_map_of_mem hv) hkey
    simp [valueAt, hnone]

/-- A transaction sees of its content what can be looked up. -/
theorem begin_congr {m m' : Content} (h : ∀ key : Bytes, m[key]? = m'[key]?) :
    Transaction.begin m = Transaction.begin m' := by
  have hlist : m.toList = m'.toList := toList_eq Std.TreeMap.ordered_keys_toList fun key value => by
    rw [Std.TreeMap.mem_toList_iff_getElem?_eq_some, h]
  simp only [Transaction.begin, hlist, h]

/-! ## executions -/

/-- Statements one after the other in a transaction. -/
def executeAll (p : Platform) (statements : List Statement) (t : Transaction) :
    Except EngineError Transaction :=
  statements.foldlM (fun t statement =>
    (executeInTransaction p { t with made := [] } statement).map Prod.snd) t

/-- On the content of a snapshot, statements lead to these writes. -/
def Executes (p : Platform) (H : Versions) (statements : List Statement) (snapshot : Nat)
    (writes : Std.TreeMap Bytes (Option Bytes)) : Prop :=
  ∃ done, executeAll p statements (.begin (contentAt H snapshot)) = .ok done ∧ done.writes = writes

section

variable {p : Platform} {core core' : Core} {given : Nat → List Statement}

/-- Statements leave the snapshot of their transaction alone. -/
theorem executeAll_snapshot {statements : List Statement} {t done : Transaction}
    (h : executeAll p statements t = .ok done) : done.read = t.read ∧ done.scan = t.scan := by
  refine foldlM_keeps h (P := fun done => done.read = t.read ∧ done.scan = t.scan) ⟨rfl, rfl⟩ ?_
  intro statement _ before after hbefore hafter
  obtain ⟨result, hresult, rfl⟩ := map_eq_ok.mp hafter
  obtain ⟨made, -, heq⟩ := (writes_of_execute p _ statement _ hresult).made
  rw [heq]
  exact hbefore

/-- What is committed later does not matter to a snapshot. -/
theorem Executes.later {statements : List Statement} {snapshot : Nat}
    {writes : Std.TreeMap Bytes (Option Bytes)}
    (h : Executes p core.history statements snapshot writes) (hs : Mvcc.Sound core)
    (hs' : Mvcc.Sound core') (hlater : Core.Later core core')
    (hvisible : snapshot ≤ core.db.visibleThrough) :
    Executes p core'.history statements snapshot writes := by
  obtain ⟨floor, hr⟩ := hs.retains
  obtain ⟨floor', hr'⟩ := hs'.retains
  have hsame : ∀ key : Bytes, (contentAt core'.history snapshot)[key]? =
      (contentAt core.history snapshot)[key]? := by
    intro key
    rw [get_contentAt, get_contentAt, valueAt, valueAt,
      hlater.agree.newestAt hr.unambiguous hr'.unambiguous hvisible]
  obtain ⟨done, hdone, hwrites⟩ := h
  exact ⟨done, begin_congr hsame ▸ hdone, hwrites⟩

/-- **What a statement sees** of an open transaction is where the statements before it lead. -/
theorem transactionOf_eq (hs : Mvcc.Sound core) {id : Nat} {t : Mvcc.Transaction}
    (ht : core.transactions[id]? = some t) {statements : List Statement} {done : Transaction}
    (hdone : executeAll p statements (.begin (contentAt core.history t.snapshot)) = .ok done)
    (hwrites : done.writes = t.writes) : transactionOf core t = { done with made := [] } := by
  obtain ⟨floor, hr⟩ := hs.retains
  obtain ⟨-, hactive, -, -⟩ := hs.owned.transactions id t ht
  have hread : ∀ key, core.db.read key t.snapshot = (contentAt core.history t.snapshot)[key]? :=
    fun key => by rw [get_contentAt, hr.read_eq (hr.active id _ hactive).1]
  have hscan : ∀ start, (Mvcc.Transaction.scanPrefix { t with writes := ∅ } core.db start).toList =
      (contentAt core.history t.snapshot).toList.filter fun entry => start.isPrefixOf entry.1 := by
    intro start
    refine toList_eq (List.Pairwise.filter _ Std.TreeMap.ordered_keys_toList) fun key value => ?_
    rw [Mvcc.Transaction.scanPrefix_get, List.mem_filter,
      Std.TreeMap.mem_toList_iff_getElem?_eq_some, List.isPrefixOf_iff_prefix]
    simp [Mvcc.overlay, hread, and_comm]
  obtain ⟨hdoneread, hdonescan⟩ := executeAll_snapshot hdone
  rw [transactionOf, hdoneread, hdonescan, hwrites, funext hread, funext hscan]
  rfl

/-! ## the record -/

/-- One more statement for a transaction. -/
def record (given : Nat → List Statement) : Option (Nat × Statement) → Nat → List Statement
  | none => given
  | some (id, statement) => Function.update given id (given id ++ [statement])

/-- The statement that has succeeded in a turn: one that the session was asked for in its
transaction and has answered, or the one of `execute_autocommit` when it goes on to commit. -/
def succeeded : SessionState → Turn → Option Result → SessionState → Option (Nat × Statement)
  | .active id, .call _ (.statement statement), some (.ok _), .active _ => some (id, statement)
  | .executing id statement, .proceed _, none, .committing _ _ => some (id, statement)
  | _, _, _, _ => none

/-- The sessions, and the statements of each transaction. -/
structure Recorded where
  system : System
  given : Nat → List Statement

namespace Recorded

/-- A database just opened. -/
def start (core : Core) : Recorded := ⟨System.start core, fun _ => []⟩

/-- The sessions take their turn, and what has succeeded is recorded. -/
def step (p : Platform) (r : Recorded) (turn : Turn) : Option (Recorded × Option Result) :=
  (r.system.step p turn).map fun done => (⟨done.1, match turn.session with
    | none => r.given
    | some x => record r.given
        (succeeded (r.system.sessions x) turn done.2 (done.1.sessions x))⟩, done.2)

/-- Turns one after the other, and what they have returned. -/
abbrev run (p : Platform) : Recorded → List Turn → Option (Recorded × List (Option Result)) :=
  Simulation.run (step p)

end Recorded

/-- Open transactions, commits under way and finished ones are where their statements lead. -/
structure Accounted (p : Platform) (given : Nat → List Statement) (core : Core) : Prop where
  fresh : ∀ id, core.db.nextTransactionId ≤ id → given id = []
  transactions : ∀ (id : Nat) t, core.transactions[id]? = some t →
    Executes p core.history (given id) t.snapshot t.writes
  prepared : ∀ (x : Nat) q, core.prepared[x]? = some q →
    ∃ writes, Executes p core.history (given q.transactionId) q.snapshot writes ∧
      q.writes = writes.toList
  finished : ∀ f ∈ core.finished, f.commit.snapshot ≤ core.db.visibleThrough ∧
    ∃ writes, Executes p core.history (given f.commit.transactionId) f.commit.snapshot writes ∧
      f.commit.writes = writes.toList

/-- The steps that are none of a statement. -/
def quiet : Mvcc.Action → Bool
  | .write _ _ _ | .protectScans _ | .scanPrefix _ _ => false
  | _ => true

namespace Accounted

/-- A step that writes nothing: transactions are those from before or new, commits under way are
of transactions, and finished ones were under way. -/
theorem later (h : Accounted p given core) (hs : Mvcc.Sound core) (hs' : Mvcc.Sound core')
    (hlater : Core.Later core core')
    (hnext : core.db.nextTransactionId ≤ core'.db.nextTransactionId)
    (htx : ∀ (id : Nat) t, core'.transactions[id]? = some t → core.transactions[id]? = some t ∨
      id = core.db.nextTransactionId ∧ t.writes = ∅)
    (hprep : ∀ (x : Nat) q, core'.prepared[x]? = some q → core.prepared[x]? = some q ∨
      ∃ t, core.transactions[q.transactionId]? = some t ∧ q.snapshot = t.snapshot ∧
        q.writes = t.writes.toList)
    (hfin : ∀ f ∈ core'.finished, f ∈ core.finished ∨ ∃ x : Nat,
      core.prepared[x]? = some f.commit) :
    Accounted p given core' := by
  obtain ⟨floor, hr⟩ := hs.retains
  have hopen : ∀ (id : Nat) t, core.transactions[id]? = some t →
      Executes p core'.history (given id) t.snapshot t.writes := fun id t ht =>
    (h.transactions id t ht).later hs hs' hlater
      (hr.active id _ (hs.owned.transactions id t ht).2.1).2
  have hprepared : ∀ (x : Nat) q, core.prepared[x]? = some q →
      q.snapshot ≤ core.db.visibleThrough ∧
      ∃ writes, Executes p core'.history (given q.transactionId) q.snapshot writes ∧
        q.writes = writes.toList := by
    intro x q hq
    have hle := (hr.active _ _ (hs.owned.prepared x q hq).1).2
    obtain ⟨writes, hexecutes, hwrites⟩ := h.prepared x q hq
    exact ⟨hle, writes, hexecutes.later hs hs' hlater hle, hwrites⟩
  refine ⟨fun id hid => h.fresh id (Nat.le_trans hnext hid), fun id t ht => ?_, fun x q hq => ?_,
    fun f hf => ?_⟩
  · rcases htx id t ht with ht | ⟨rfl, hnone⟩
    · exact hopen id t ht
    · rw [h.fresh _ (Nat.le_refl _)]
      exact ⟨_, rfl, hnone.symm⟩
  · rcases hprep x q hq with hq | ⟨t, ht, hsnapshot, hwrites⟩
    · exact (hprepared x q hq).2
    · exact ⟨t.writes, hsnapshot ▸ hopen _ t ht, hwrites⟩
  · rcases hfin f hf with hf | ⟨x, hq⟩
    · obtain ⟨hle, writes, hexecutes, hwrites⟩ := h.finished f hf
      exact ⟨Nat.le_trans hle hlater.visible, writes, hexecutes.later hs hs' hlater hle, hwrites⟩
    · obtain ⟨hle, hexecutes⟩ := hprepared x f.commit hq
      exact ⟨Nat.le_trans hle hlater.visible, hexecutes⟩

/-- **A step** of the core that is none of a statement. -/
theorem step (h : Accounted p given core) (hs : Mvcc.Sound core) (action : Mvcc.Action)
    (hquiet : quiet action = true) (hstep : core.step action = some core') :
    Accounted p given core' := by
  have hs' := hs.step hstep
  have hlater := Core.Later.of_step hs hstep
  -- a step that leaves commits alone and opens no transaction
  have hsame : core'.db.nextTransactionId = core.db.nextTransactionId →
      (∀ (id : Nat) t, core'.transactions[id]? = some t → core.transactions[id]? = some t) →
      core'.prepared = core.prepared → core'.finished = core.finished →
      Accounted p given core' := fun hnext htx hprep hfin =>
    h.later hs hs' hlater (Nat.le_of_eq hnext.symm) (fun id t ht => .inl (htx id t ht))
      (fun x q hq => .inl (hprep ▸ hq)) fun f hf => .inl (hfin ▸ hf)
  have hfinish : ∀ {x : Nat} {pageIds : Option (List PageId)}, core.finish x pageIds = some core' →
      Accounted p given core' := by
    intro x pageIds hfinish
    obtain ⟨q, hq, -, rfl⟩ := hs.finish_eq hfinish
    obtain ⟨versions, pageRefs, dirtyKeys, hst⟩ :=
      core.db.settle_eq q.transactionId x q.writes pageIds
    obtain ⟨completed, visible, hdone, -⟩ :=
      (core.db.settle q.transactionId x q.writes pageIds).complete_eq x
    refine h.later hs hs' hlater (by rw [hdone, hst]; exact Nat.le_refl _) (fun id t ht => .inl ht)
      (fun y r hr => .inl ?_) fun f hf => ?_
    · rw [get_erase] at hr
      split at hr
      · cases hr
      · exact hr
    · rcases List.mem_append.mp hf with hf | hf
      · exact .inl hf
      · exact .inr ⟨x, by rw [List.mem_singleton.mp hf, hq]⟩
  have herase : ∀ {id id' : Nat} {t}, (core.transactions.erase id)[id']? = some t →
      core.transactions[id']? = some t := by
    intro id id' t ht
    rw [get_erase] at ht
    split at ht
    · cases ht
    · exact ht
  cases action with
  | begin =>
    have hbegin := Core.begin_eq hstep
    subst hbegin
    refine h.later hs hs' hlater (Nat.le_succ _) (fun id t ht => ?_) (fun x q hq => .inl hq)
      fun f hf => .inl hf
    rw [get_insert] at ht
    split at ht
    · next heq =>
      cases ht
      exact .inr ⟨heq.symm, rfl⟩
    · exact .inl ht
  | prepare id =>
    obtain ⟨t, ht, -, rfl⟩ := Core.prepare_eq hstep
    refine h.later hs hs' hlater (Nat.le_refl _) (fun id t ht => .inl (herase ht))
      (fun x q hq => ?_) fun f hf => .inl hf
    rw [get_insert] at hq
    split at hq
    · cases hq
      exact .inr ⟨t, ht, rfl, rfl⟩
    · exact .inl hq
  | finish timestamp pageIds => exact hfinish hstep
  | abandon timestamp => exact hfinish hstep
  | close id =>
    obtain ⟨-, rfl⟩ := Core.close_eq hstep
    exact hsame rfl (fun _ _ => herase) rfl rfl
  | finishClose id =>
    obtain ⟨-, rfl⟩ := Core.finishClose_eq hstep
    exact hsame rfl (fun _ _ ht => ht) rfl rfl
  | capture | drop build =>
    obtain ⟨b, -, rfl⟩ := Option.map_eq_some_iff.mp hstep
    exact hsame rfl (fun _ _ ht => ht) rfl rfl
  | publish build manifestPageId openPage =>
    obtain ⟨b, -, rfl⟩ := Option.map_eq_some_iff.mp hstep
    obtain ⟨versions, pageRefs, generations, dirtyKeys, hst⟩ :=
      core.db.publish_eq ⟨b.timestamp, b.entries, manifestPageId⟩ openPage
    exact hsame (by rw [hst]) (fun _ _ ht => ht) rfl rfl
  | _ => cases hquiet

/-- **A statement** that succeeds is one more of its transaction. -/
theorem execute (h : Accounted p given core) (hs : Mvcc.Sound core) {id : Nat}
    {t : Mvcc.Transaction} (ht : core.transactions[id]? = some t) {statement : Statement}
    {output : StatementOutput} {done : Transaction}
    (hdone : executeInTransaction p (transactionOf core t) statement = .ok (output, done))
    (hall : writeAll core id done.made = some core') :
    Accounted p (record given (some (id, statement))) core' := by
  obtain ⟨transactions, hall', hown, hothers⟩ := writeAll_of_execute ht hdone
  rw [hall, Option.some.injEq] at hall'
  subst hall'
  obtain ⟨-, hactive, -, hprepared⟩ := hs.owned.transactions id t ht
  have hbelow := hs.owned.ids id _ hactive
  have hsame : ∀ {id'}, id' ≠ id → record given (some (id, statement)) id' = given id' :=
    fun hne => Function.update_of_ne hne _ _
  refine ⟨fun id' hid => ?_, fun id' t' ht' => ?_, fun x q hq => ?_, fun f hf => ?_⟩
  · rw [hsame fun heq => by subst heq; exact absurd hbelow (Nat.not_lt.mpr hid)]
    exact h.fresh id' hid
  · by_cases heq : id' = id
    · subst heq
      rw [hown, Option.some.injEq] at ht'
      subst ht'
      obtain ⟨before, hbefore, hwrites⟩ := h.transactions id' t ht
      refine ⟨done, ?_, rfl⟩
      rw [record, Function.update_self, executeAll, List.foldlM_append]
      refine bind_eq_ok.mpr ⟨before, hbefore, ?_⟩
      rw [List.foldlM_cons, ← transactionOf_eq hs ht hbefore hwrites, hdone]
      rfl
    · rw [hsame heq]
      exact h.transactions id' t' (hothers id' (Ne.symm heq) ▸ ht')
  · rw [hsame (hprepared x q hq)]
    exact h.prepared x q hq
  · rw [hsame fun heq => by rw [← heq, (hs.owned.past f hf).2.1] at ht; cases ht]
    exact h.finished f hf

end Accounted

/-! ## turns -/

variable {state : SessionState} {outcome : Outcome}

namespace Accounted

/-- A statement in a transaction: it succeeds and is recorded, or fails and is not. -/
theorem executeIn (h : Accounted p given core) (hs : Mvcc.Sound core) {id : Nat}
    {statement : Statement} {next : StatementOutput → SessionState}
    {reply : StatementOutput → Option Result} {dropped : SessionState}
    {note : Option Result → SessionState → Option (Nat × Statement)}
    (ho : SqlSession.executeIn p core id statement next reply dropped = some outcome)
    (hkept : ∀ output, note (reply output) (next output) = some (id, statement))
    (hlost : ∀ error, note (some (.error error)) dropped = none) :
    Accounted p (record given (note outcome.reply outcome.state)) outcome.core := by
  unfold SqlSession.executeIn at ho
  split at ho
  · cases ho
  · next t ht =>
    split at ho
    · next output done hdone =>
      obtain ⟨core', hall, rfl⟩ := Option.map_eq_some_iff.mp ho
      rw [hkept]
      exact h.execute hs ht hdone hall
    · next error _ =>
      obtain ⟨core', hclose, rfl⟩ := Option.map_eq_some_iff.mp ho
      rw [hlost]
      exact h.step hs (.close id) rfl hclose

/-- A transaction begins. -/
theorem beginWith (h : Accounted p given core) (hs : Mvcc.Sound core) {next : Nat → SessionState}
    {reply : Option Result} (ho : SqlSession.beginWith core next reply = some outcome) :
    Accounted p given outcome.core := by
  unfold SqlSession.beginWith at ho
  split at ho
  · next begun hbegin =>
    cases ho
    exact h.step hs .begin rfl hbegin
  · cases ho
    exact h

/-- A session is asked for something. -/
theorem call (h : Accounted p given core) (hs : Mvcc.Sound core) {x : Nat} {call : Call}
    (ho : SqlSession.call p core call state = some outcome) :
    Accounted p (record given (succeeded state (.call x call) outcome.reply outcome.state))
      outcome.core := by
  cases state with
  | idle =>
    cases call with
    | syntaxError message =>
      cases ho
      exact h
    | statement statement =>
      cases statement with
      | commit | rollback =>
        cases ho
        exact h
      | _ =>
        simp only [SqlSession.call, SqlSession.executeStatement, SqlSession.begin,
          SqlSession.executeDataStatement] at ho
        exact h.beginWith hs ho
  | failed =>
    cases call with
    | syntaxError message =>
      cases ho
      exact h
    | statement statement =>
      cases statement <;> cases ho <;> exact h
  | active id =>
    cases call with
    | syntaxError message =>
      obtain ⟨core', hclose, rfl⟩ := Option.map_eq_some_iff.mp ho
      exact h.step hs (.close id) rfl hclose
    | statement statement =>
      cases statement with
      | beginTransaction | commit =>
        cases ho
        exact h
      | rollback =>
        obtain ⟨core', hclose, rfl⟩ := Option.map_eq_some_iff.mp ho
        exact h.step hs (.close id) rfl hclose
      | _ => exact h.executeIn hs ho (fun _ => rfl) fun _ => rfl
  | _ =>
    cases call with
    | syntaxError message => cases ho
    | statement statement => cases statement <;> cases ho

/-- A call that has not returned goes on. -/
theorem proceed (h : Accounted p given core) (hs : Mvcc.Sound core) {x : Nat}
    (ho : SqlSession.proceed p core state = some outcome) :
    Accounted p (record given (succeeded state (.proceed x) outcome.reply outcome.state))
      outcome.core := by
  cases state with
  | executing id statement => exact h.executeIn hs ho (fun _ => rfl) fun _ => rfl
  | committing id output =>
    show Accounted p given outcome.core
    simp only [SqlSession.proceed, SqlSession.prepare] at ho
    split at ho
    · cases ho
    · split at ho
      · cases ho
        exact h
      · split at ho
        · cases ho
          exact h
        · obtain ⟨core', hprepare, rfl⟩ := Option.map_eq_some_iff.mp ho
          exact h.step hs (.prepare id) rfl hprepare
  | ending id result =>
    obtain ⟨core', hend, rfl⟩ := Option.map_eq_some_iff.mp ho
    rcases Option.or_eq_some_iff.mp hend with hclose | ⟨-, hclose⟩
    · exact h.step hs (.finishClose id) rfl hclose
    · exact h.step hs (.close id) rfl hclose
  | _ => cases ho

/-- A commit has its pages, or has none. -/
theorem persist (h : Accounted p given core) (hs : Mvcc.Sound core)
    {pages : Except Mvcc.TransactionError (List PageId)}
    (ho : SqlSession.persist core pages state = some outcome) :
    Accounted p given outcome.core := by
  cases state with
  | persisting id timestamp output =>
    cases pages with
    | ok pageIds =>
      obtain ⟨core', hfinish, rfl⟩ := Option.map_eq_some_iff.mp ho
      exact h.step hs (.finish timestamp pageIds) rfl hfinish
    | error error =>
      obtain ⟨core', hfinish, rfl⟩ := Option.map_eq_some_iff.mp ho
      exact h.step hs (.abandon timestamp) rfl hfinish
  | _ => cases ho

end Accounted

/-! ## runs -/

namespace Recorded

variable {r r' : Recorded} {turn : Turn} {reply : Option Result}

end Recorded

end

end QuantaDb.Engine
