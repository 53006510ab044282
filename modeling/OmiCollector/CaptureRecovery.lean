import OmiCollector.CaptureConflicts

/-! Ambiguous commits of the single-source writer.

The commit of a drain may raise after the database has or has not kept it. The writer then reopens
the database, reads the source row, the tail and the rows of the drain, authenticates all rows, and
either publishes the commit, reports its rollback, or stops for good. `Durable` is whatever the
database holds when it is reopened. -/
namespace CaptureRecovery

open ByteCodec CaptureModel RefusalLogic CaptureStore CaptureRows CaptureInvariant

variable {D : Type} [DecidableEq D]

/-- `InternalAudioStoreError`, `TransientInternalAudioStorageError`, and
`FatalInternalAudioStorageError`. -/
inductive Failure where
  | refused (message : String)
  | transient (message : String)
  | fatal (message : String)
  deriving DecidableEq, Repr

/-- The writer: the rows and the digest cache, and `_failed`. -/
structure Writer (D : Type) where
  store : Store D
  failed : Bool
  deriving DecidableEq

abbrev WriterM (D : Type) (α : Type) := Refusable (Writer D) Failure α

/-- The database error of a commit that is reconciled. A corrupt database and a rollback that
cannot be confirmed are fatal before, and a constraint error is a rollback. -/
inductive CommitError where
  | busy
  | other
  deriving DecidableEq, Repr

/-- The rows of the source that the reopened database holds, in primary-key order. -/
structure Durable (D : Type) where
  source : Option (CaptureSource D)
  records : List CaptureRecord
  tail : Option CaptureTail
  conflicts : List CaptureConflict
  ordered : Ordered records

def reopened (w : Writer D) (found : Durable D) : Writer D :=
  { w with store := ⟨found.source, found.records, found.tail, found.conflicts, w.store.digestCache⟩ }

/-- What became of a commit: it returned, or it raised and the database then holds `found`. -/
inductive Commit (D : Type) where
  | applied
  | ambiguous (error : CommitError) (found : Durable D)

/-- A step of the store that only refuses with `InternalAudioStoreError`. -/
def onStore {α : Type} (x : StoreM D α) : WriterM D α := do
  let w ← get
  let r := exec x w.store
  set { w with store := r.2 }
  match r.1 with
  | .error message => throw (.refused message)
  | .ok a => pure a

def checkWriter : WriterM D Unit := do
  refuseIf ((← get).failed = true) (.refused "audio store is fail-stopped")

def failStop {α : Type} (message : String) : WriterM D α := do
  modify ({ · with failed := true })
  throw (.fatal message)

def Failure.text : Failure → String
  | .refused message => message
  | .transient message => message
  | .fatal message => message

def discardDigest : WriterM D Unit :=
  modify (fun w => { w with store := { w.store with digestCache := none } })

def publishDigest (count : ℕ) (digest : D) (state : Bytes) : WriterM D Unit :=
  modify (fun w => { w with store := { w.store with digestCache := some (count, digest, state) } })

/-- The arguments of `_recover_ambiguous`. -/
structure Proposal (D : Type) where
  source : CaptureSource D
  expected : ℕ
  records : List CaptureRecord
  newCount : ℕ
  digest : D
  tail : Option CaptureTail
  previousTail : Option CaptureTail

structure Inspection (D : Type) where
  current : Option (CaptureSource D)
  actualTail : Option CaptureTail
  proposedRows : List CaptureRecord
  authenticated : Option Bytes

/-- The stored rows at the ordinals of a drain. -/
def readProposed (cfg : StoreConfig D) (expected : ℕ) (records : List CaptureRecord) :
    WriterM D (List CaptureRecord) :=
  if records = [] then pure [] else onStore (readRecordPage cfg (expected - 1) records.length)

/-- `_inspect_ambiguous_drain` once the database is reopened. -/
def inspectAmbiguousDrain (cfg : StoreConfig D) (expected : ℕ) (records : List CaptureRecord) :
    WriterM D (Inspection D) := do
  let current := (← get).store.source
  let actualTail := (← get).store.tail
  let proposedRows ← readProposed cfg expected records
  match current with
  | none => return ⟨none, actualTail, proposedRows, none⟩
  | some source => do
    let state ← onStore (digestState cfg source)
    return ⟨some source, actualTail, proposedRows, some state⟩

/-- How a confirmed rollback is reported: `raise_if_sqlite_storage_fault` names a busy database. -/
def CommitError.report : CommitError → Failure
  | .busy => .transient "canonical audio database is busy"
  | .other => .refused "ambiguous drain was rolled back"

def recoverAmbiguous (cfg : StoreConfig D) (error : CommitError) (p : Proposal D) :
    WriterM D ℕ := do
  discardDigest
  let seen ← tryCatch (inspectAmbiguousDrain cfg p.expected p.records) (fun e =>
    failStop ("ambiguous drain could not be inspected: " ++ e.text))
  match seen.current, seen.authenticated with
  | some current, some authenticated =>
    let exactRows := decide (seen.proposedRows.length = p.records.length ∧
      seen.proposedRows.map CaptureRecord.rawBytes = p.records.map CaptureRecord.rawBytes)
    let proposed : CaptureSource D :=
      { p.source with committedCount := p.newCount, committedSha256 := p.digest }
    if snapshot current = snapshot proposed ∧ exactRows = true ∧ seen.actualTail = p.tail then do
      publishDigest p.newCount p.digest authenticated
      return p.newCount
    else if snapshot current = snapshot p.source ∧ seen.proposedRows = [] ∧
        seen.actualTail = p.previousTail then do
      publishDigest p.source.committedCount p.source.committedSha256 authenticated
      throw error.report
    else failStop "ambiguous drain commit could not be reconciled"
  | _, _ => failStop "source disappeared after ambiguous commit"

/-- `_append_drain` with the outcome of its commit. -/
def appendDrainCommit (cfg : StoreConfig D) (now : ℕ) (source : CaptureSource D) (expected : ℕ)
    (rawRecords : List Bytes) (expectedSha256 : Option D) (tail : Option CaptureTail)
    (commit : Commit D) : WriterM D ℕ := do
  let newCount := expected + rawRecords.length
  refuseIf (newCount > maxProtocolUint32 ∨
      source.sequenceStart + newCount > source.sequenceLimit) (.refused "drain exceeds source range")
  let state ← onStore (digestState cfg source)
  let parsed := parseRecords expected rawRecords
  let proposed := state ++ rawLog parsed
  let digest := cfg.sha256 proposed
  refuseIf (expectedSha256.isSome ∧ expectedSha256 ≠ some digest)
    (.refused "drain digest does not match exact source rows")
  let previous := (← get).store.tail
  let desired ← onStore (resolveTail cfg now source previous tail newCount parsed)
  onStore (recheckSource source)
  onStore (recheckTail previous)
  let rows ← requireSome (parsed.foldlM insertRecord (← get).store.records)
    (.refused "drain violates source constraints")
  match commit with
  | .applied => do
    modify (fun w => { w with store := { w.store with
      records := rows
      source := some { source with committedCount := newCount, committedSha256 := digest }
      tail := desired
      digestCache := some (newCount, digest, proposed) } })
    return newCount
  | .ambiguous error found => do
    modify (reopened · found)
    recoverAmbiguous cfg error ⟨source, expected, parsed, newCount, digest, desired, previous⟩

/-- `_commit_replay_tail` with the outcome of its commit. -/
def commitReplayTailCommit (cfg : StoreConfig D) (source : CaptureSource D)
    (previous desired : Option CaptureTail) (commit : Commit D) : WriterM D ℕ := do
  onStore (recheckSource source)
  onStore (recheckTail previous)
  match commit with
  | .applied => do
    modify (fun w => { w with store := { w.store with tail := desired } })
    return source.committedCount
  | .ambiguous error found => do
    modify (reopened · found)
    recoverAmbiguous cfg error
      ⟨source, source.committedCount, [], source.committedCount, source.committedSha256, desired,
        previous⟩

/-- A call of the writer. Every operation that changes rows checks the writer first; `reopen` is a
new process. -/
def operate (cfg : StoreConfig D) : Call D → WriterM D ℕ
  | .reopen => do
    modify (fun w => ⟨{ w.store with digestCache := none }, false⟩)
    return 0
  | call => do
    checkWriter
    onStore (perform cfg call)

/-- `publication_transaction` around the statements of its caller. -/
def publicationTransaction {α : Type} (body : StoreM D α) : WriterM D α := do
  checkWriter
  onStore body

/-! ### What an inspection finds -/

section Inspections

variable {cfg : StoreConfig D} {w : Writer D} {s : CaptureSource D} {E : Failure → Writer D → Prop}

omit [DecidableEq D] in
theorem exec_onStore {α : Type} (x : StoreM D α) (w : Writer D) :
    exec (onStore x) w = match exec x w.store with
      | (.ok a, st) => (.ok a, { w with store := st })
      | (.error e, st) => (.error (Failure.refused e), { w with store := st }) := by
  change exec (match (exec x w.store).1 with
    | .error message => throw (Failure.refused message)
    | .ok a => pure a) { w with store := (exec x w.store).2 } = _
  cases h : exec x w.store with
  | mk r st => cases r <;> rfl

omit [DecidableEq D] in
@[simp] theorem wp_onStore {α : Type} {Q : α → Writer D → Prop} (x : StoreM D α) :
    wp (onStore x) w Q E ↔ wp x w.store (fun a st => Q a { w with store := st })
      (fun e st => E (.refused e) { w with store := st }) := by
  simp only [wp, exec_onStore]
  cases h : exec x w.store with
  | mk r st => cases r <;> rfl

omit [DecidableEq D] in
@[simp] theorem wp_failStop {α : Type} {Q : α → Writer D → Prop} (message : String) :
    wp (failStop message : WriterM D α) w Q E ↔ E (.fatal message) { w with failed := true } :=
  Iff.rfl

/-- The rows that a source row accounts for. -/
structure Authentic (cfg : StoreConfig D) (s : CaptureSource D) (rows : List CaptureRecord) :
    Prop where
  contiguous : Contiguous 0 rows
  count : rows.length = s.committedCount
  layout : ∀ r ∈ rows, r.deviceTimestamp ≤ maxProtocolUint32 ∧ r.payload.length = audioPayloadSize
  digest : cfg.sha256 (rawLog rows) = s.committedSha256

/-- The source row that is there, if any, accounts for all rows. -/
def Authenticates (cfg : StoreConfig D) (st : Store D) : Prop :=
  ∀ s, st.source = some s → Authentic cfg s st.records

theorem frontierCheck_none {committedCount count : ℕ} {r : CaptureRecord} :
    frontierCheck committedCount count r = none ↔ r.deviceTimestamp ≤ maxProtocolUint32 ∧
      r.ordinal = count ∧ r.payload.length = audioPayloadSize ∧ count < committedCount := by
  unfold frontierCheck
  by_cases hts : r.deviceTimestamp > maxProtocolUint32
  · rw [if_pos hts]
    simp
    omega
  · rw [if_neg hts]
    by_cases hrow : r.ordinal ≠ count ∨ r.payload.length ≠ audioPayloadSize ∨ count ≥ committedCount
    · rw [if_pos hrow]
      simp
      omega
    · rw [if_neg hrow]
      simp
      omega

/-- What a digest scan leaves in the cache. -/
def rescanned (st : Store D) (s : CaptureSource D) : Store D :=
  { st with digestCache := some (s.committedCount, s.committedSha256, rawLog st.records) }

omit [DecidableEq D] in
theorem Authentic.check {rows : List CaptureRecord} (h : Authentic cfg s rows) :
    ∀ r ∈ rows, frontierCheck s.committedCount r.ordinal r = none := by
  intro r hr
  obtain ⟨hts, hpayload⟩ := h.layout r hr
  have hlt := (h.contiguous.ordinal_lt hr).2
  have hcount := h.count
  exact frontierCheck_none.mpr ⟨hts, rfl, hpayload, by omega⟩

/-- A scan of ordered rows completes exactly when the source row accounts for them, and then it
has hashed all of them. -/
theorem wp_digestScan {st : Store D} (hcache : st.digestCache = none) (hrows : Ordered st.records)
    {Q : Bytes → Store D → Prop} {E : String → Store D → Prop}
    (hq : Authentic cfg s st.records → Q (rawLog st.records) (rescanned st s))
    (he : ∀ e, ¬ Authentic cfg s st.records → E e st) : wp (digestState cfg s) st Q E := by
  have hcached : cachedDigest st s = none := by simp [cachedDigest, hcache]
  simp only [digestState, wp_bind, wp_get, hcached]
  cases hscan : hashPages (frontierCheck s.committedCount) st.records cfg.chunkLimit
      (st.records.length + 1) 0 [] with
  | error e =>
    simp only [scanDigest, wp_bind, wp_get, hscan]
    apply he
    intro hauth
    have hok := hashPages_ok cfg.chunkLimit_pos hauth.contiguous hauth.check
      (st.records.length + 1) 0 [] (by omega) (by omega)
    rw [hscan] at hok
    cases hok
  | ok x =>
    obtain ⟨count, state⟩ := x
    obtain ⟨hcont, rfl, rfl, hall⟩ := hashPages_sound
      (fun count r h => (frontierCheck_none.mp h).2.1) hrows cfg.chunkLimit_pos
      (st.records.length + 1) 0 [] (by simp [contiguous_nil]) (by omega) (by omega) hscan
    simp only [scanDigest, wp_bind, wp_get, hscan, wp_fromExcept_ok, wp_pure, wp_refuseIf, wp_set,
      List.nil_append, List.drop_zero] at hall ⊢
    refine ⟨fun hne => he _ (fun hauth => hne hauth.count), fun hcount =>
      ⟨fun hne => he _ (fun hauth => hne hauth.digest), fun hdigest => ?_⟩⟩
    have hlayout : ∀ r ∈ st.records,
        r.deviceTimestamp ≤ maxProtocolUint32 ∧ r.payload.length = audioPayloadSize := by
      intro r hr
      obtain ⟨hts, -, hpayload, -⟩ := frontierCheck_none.mp (hall r hr)
      exact ⟨hts, hpayload⟩
    exact hq ⟨hcont, not_not.mp hcount, hlayout, not_not.mp hdigest⟩

/-- The rows of `[first, first + count)`. -/
def rowsIn (first count : ℕ) (rows : List CaptureRecord) : List CaptureRecord :=
  (rows.filter (fun r => decide ((first : ℤ) - 1 < r.ordinal))).filter
    (fun r => decide (r.ordinal < first + count))

omit [DecidableEq D] in
theorem Authentic.rowsIn {rows : List CaptureRecord} (h : Authentic cfg s rows) {first : ℕ}
    (hfirst : first ≤ rows.length) (count : ℕ) :
    rowsIn first count rows = (rows.drop first).take count := by
  have hdrop := h.contiguous.drop hfirst
  rw [Nat.zero_add] at hdrop
  rw [CaptureRecovery.rowsIn, h.contiguous.filter_after, Nat.sub_zero, hdrop.filter_before]

/-- An inspection of ordered rows whose reads complete. -/
structure Inspected (cfg : StoreConfig D) (w : Writer D) (expected : ℕ)
    (records : List CaptureRecord) (seen : Inspection D) (t : Writer D) : Prop where
  current : seen.current = w.store.source
  tail : seen.actualTail = w.store.tail
  absent : w.store.source = none → seen.authenticated = none
  present : ∀ s, w.store.source = some s → Authentic cfg s w.store.records ∧
    seen.authenticated = some (rawLog w.store.records) ∧
    seen.proposedRows = (w.store.records.drop expected).take records.length
  store : t.store = { w.store with digestCache := t.store.digestCache }
  failed : t.failed = w.failed

omit [DecidableEq D] in
/-- Reading the rows of the drain keeps the writer and gives the rows at its ordinals. -/
theorem wp_readProposed {expected : ℕ} (hexpected : expected ≤ maxProtocolUint32)
    {records : List CaptureRecord} (hlimit : records.length ≤ cfg.chunkLimit)
    {Q : List CaptureRecord → Writer D → Prop}
    (hq : ∀ rows, (∀ s, Authentic cfg s w.store.records →
      rows = (w.store.records.drop expected).take records.length) → Q rows w) :
    wp (readProposed cfg expected records) w Q E := by
  by_cases hempty : records = []
  · rw [readProposed, if_pos hempty]
    apply hq
    intro s _
    rw [hempty, List.length_nil, List.take_zero]
  · have hpos := List.length_pos_iff.mpr hempty
    rw [readProposed, if_neg hempty, wp_onStore]
    simp only [readRecordPage, wp_bind, wp_refuseIf, wp_get, wp_pure]
    refine ⟨fun h => by omega, fun _ => ⟨fun h => by omega, fun _ => ?_⟩⟩
    apply hq
    intro s hauth
    rw [hauth.contiguous.recordPage]

theorem wp_inspectAmbiguousDrain (hcache : w.store.digestCache = none)
    (hrows : Ordered w.store.records) {expected : ℕ} (hexpected : expected ≤ maxProtocolUint32)
    {records : List CaptureRecord} (hlimit : records.length ≤ cfg.chunkLimit) :
    wp (inspectAmbiguousDrain cfg expected records) w (Inspected cfg w expected records)
      (fun _ _ => ¬ Authenticates cfg w.store) := by
  simp only [inspectAmbiguousDrain, wp_bind, wp_get]
  apply wp_readProposed hexpected hlimit
  intro rows hproposed
  cases hsource : w.store.source with
  | none =>
    rw [wp_pure]
    exact ⟨hsource.symm, rfl, fun _ => rfl, by simp [hsource], rfl, rfl⟩
  | some s =>
    simp only [wp_bind, wp_onStore, wp_pure]
    apply wp_digestScan hcache hrows
    · intro hauth
      refine ⟨hsource.symm, rfl, by simp [hsource], ?_, rfl, rfl⟩
      intro s' hs'
      obtain rfl := Option.some.inj (hsource.symm.trans hs')
      exact ⟨hauth, rfl, hproposed s hauth⟩
    · intro e hnot hauth
      exact hnot (hauth s hsource)

/-- The durable source row, the rows of the drain and the tail. -/
structure Holds (st : Store D) (source : CaptureSource D) (expected : ℕ)
    (records : List CaptureRecord) (count : ℕ) (tail : Option CaptureTail) : Prop where
  source : st.source.map snapshot = some (snapshot source)
  records : rowsIn expected count st.records = records
  tail : st.tail = tail

/-- The proposed state, as a drain of `count` rows would have left it. -/
def Proposal.Post (p : Proposal D) (st : Store D) : Prop :=
  Holds st { p.source with committedCount := p.newCount, committedSha256 := p.digest } p.expected
    p.records p.records.length p.tail

/-- The state before the drain. -/
def Proposal.Pre (p : Proposal D) (st : Store D) : Prop :=
  Holds st p.source p.expected [] p.records.length p.previousTail

/-- An append at the frontier or a change of the tail alone, as the writer issues them. -/
structure Proposal.Issued (cfg : StoreConfig D) (p : Proposal D) : Prop where
  frontier : p.expected = p.source.committedCount
  newCount : p.newCount = p.expected + p.records.length
  bounded : p.newCount ≤ maxProtocolUint32
  limit : p.records.length ≤ cfg.chunkLimit
  valid : ∀ r ∈ p.records, r.Valid
  contiguous : Contiguous p.expected p.records
  changes : p.records ≠ [] ∨ p.digest = p.source.committedSha256 ∧ p.tail ≠ p.previousTail

omit [DecidableEq D] in
theorem snapshot_frontier {a b : CaptureSource D} (h : snapshot a = snapshot b) :
    a.committedCount = b.committedCount ∧ a.committedSha256 = b.committedSha256 := by
  have hcount := congrArg (fun x : CaptureSource D => x.committedCount) h
  have hdigest := congrArg (fun x : CaptureSource D => x.committedSha256) h
  exact ⟨hcount, hdigest⟩

theorem rawBytes_inj {a b : CaptureRecord} (ha : a.deviceTimestamp ≤ maxProtocolUint32)
    (hb : b.deviceTimestamp ≤ maxProtocolUint32) (hord : a.ordinal = b.ordinal)
    (h : a.rawBytes = b.rawBytes) : a = b := by
  have hwidth : maxProtocolUint32 < 256 ^ 4 := by decide
  obtain ⟨htime, hpayload⟩ := List.append_inj h (by simp)
  have htime := congrArg fromBytesBig htime
  rw [fromBytesBig_toBytesBig (by omega), fromBytesBig_toBytesBig (by omega)] at htime
  cases a
  cases b
  simp_all

/-- Rows at the same ordinals with the same bytes are the same rows. -/
theorem rows_eq_of_rawBytes {first : ℕ} {xs ys : List CaptureRecord} (hx : Contiguous first xs)
    (hy : Contiguous first ys) (htx : ∀ r ∈ xs, r.deviceTimestamp ≤ maxProtocolUint32)
    (hty : ∀ r ∈ ys, r.deviceTimestamp ≤ maxProtocolUint32)
    (h : xs.map CaptureRecord.rawBytes = ys.map CaptureRecord.rawBytes) : xs = ys := by
  induction xs generalizing first ys with
  | nil => simpa using h.symm
  | cons x xs ih =>
    cases ys with
    | nil => simp at h
    | cons y ys =>
      obtain ⟨hxo, hxs⟩ := contiguous_cons.mp hx
      obtain ⟨hyo, hys⟩ := contiguous_cons.mp hy
      rw [List.map_cons, List.map_cons, List.cons.injEq] at h
      rw [rawBytes_inj (htx x (by simp)) (hty y (by simp)) (hxo.trans hyo.symm) h.1,
        ih hxs hys (fun r hr => htx r (by simp [hr])) (fun r hr => hty r (by simp [hr])) h.2]

variable {p : Proposal D} {tail : Option CaptureTail}

omit [DecidableEq D] in
/-- The first test of the verdict, over authenticated rows. -/
theorem post_iff (hp : p.Issued cfg) (hs : w.store.source = some s)
    (hauth : Authentic cfg s w.store.records) :
    (snapshot s = snapshot { p.source with
        committedCount := p.newCount, committedSha256 := p.digest } ∧
      decide (((w.store.records.drop p.expected).take p.records.length).length = p.records.length ∧
        ((w.store.records.drop p.expected).take p.records.length).map CaptureRecord.rawBytes =
          p.records.map CaptureRecord.rawBytes) = true ∧ w.store.tail = p.tail) ↔
      p.Post w.store := by
  have hcount := hauth.count
  rw [decide_eq_true_eq]
  constructor
  · rintro ⟨hsource, ⟨hlen, hbytes⟩, htail⟩
    have hnew : s.committedCount = p.newCount := (snapshot_frontier hsource).1
    have hfirst : p.expected ≤ w.store.records.length := by rw [hcount, hnew, hp.newCount]; omega
    refine ⟨by rw [hs, Option.map_some, hsource], ?_, htail⟩
    rw [hauth.rowsIn hfirst]
    have hcont : Contiguous p.expected ((w.store.records.drop p.expected).take p.records.length) := by
      have hdrop := (hauth.contiguous.drop hfirst).take p.records.length
      rwa [Nat.zero_add] at hdrop
    exact rows_eq_of_rawBytes hcont hp.contiguous
      (fun r hr => (hauth.layout r (List.mem_of_mem_drop (List.mem_of_mem_take hr))).1)
      (fun r hr => (hp.valid r hr).2.1) hbytes
  · rintro ⟨hsource, hrecords, htail⟩
    rw [hs, Option.map_some, Option.some.injEq] at hsource
    have hnew : s.committedCount = p.newCount := (snapshot_frontier hsource).1
    have hfirst : p.expected ≤ w.store.records.length := by rw [hcount, hnew, hp.newCount]; omega
    rw [hauth.rowsIn hfirst] at hrecords
    exact ⟨hsource, by rw [hrecords]; exact ⟨rfl, rfl⟩, htail⟩

omit [DecidableEq D] in
/-- The second test of the verdict, over authenticated rows. -/
theorem pre_iff (hp : p.Issued cfg) (hs : w.store.source = some s)
    (hauth : Authentic cfg s w.store.records) :
    (snapshot s = snapshot p.source ∧
      (w.store.records.drop p.expected).take p.records.length = [] ∧
      w.store.tail = p.previousTail) ↔ p.Pre w.store := by
  have hcount := hauth.count
  constructor
  · rintro ⟨hsource, hrecords, htail⟩
    have hold : s.committedCount = p.source.committedCount := (snapshot_frontier hsource).1
    have hfirst : p.expected ≤ w.store.records.length := by rw [hcount, hold, hp.frontier]
    exact ⟨by rw [hs, Option.map_some, hsource], by rw [hauth.rowsIn hfirst, hrecords], htail⟩
  · rintro ⟨hsource, hrecords, htail⟩
    rw [hs, Option.map_some, Option.some.injEq] at hsource
    have hold : s.committedCount = p.source.committedCount := (snapshot_frontier hsource).1
    have hfirst : p.expected ≤ w.store.records.length := by rw [hcount, hold, hp.frontier]
    rw [hauth.rowsIn hfirst] at hrecords
    exact ⟨hsource, hrecords, htail⟩

/-- What the writer holds after a commit was found applied or rolled back. -/
structure Reconciled (cfg : StoreConfig D) (w t : Writer D) : Prop where
  rows : t.store = { w.store with digestCache := t.store.digestCache }
  failed : t.failed = w.failed
  cache : ∃ s, t.store.source = some s ∧ Authentic cfg s t.store.records ∧
    t.store.digestCache = some (s.committedCount, s.committedSha256, rawLog t.store.records)

omit [DecidableEq D] in
theorem reconciled_of {u : Writer D} (hs : w.store.source = some s)
    (hauth : Authentic cfg s w.store.records)
    (hstore : u.store = { w.store with digestCache := u.store.digestCache })
    (hfailed : u.failed = w.failed) {count : ℕ} {digest : D} (hcount : s.committedCount = count)
    (hdigest : s.committedSha256 = digest) :
    Reconciled cfg w { u with
      store := { u.store with digestCache := some (count, digest, rawLog w.store.records) } } := by
  subst hcount hdigest
  have hsource : u.store.source = w.store.source := by rw [hstore]
  have hrecords : u.store.records = w.store.records := by rw [hstore]
  have htail : u.store.tail = w.store.tail := by rw [hstore]
  have hconflicts : u.store.conflicts = w.store.conflicts := by rw [hstore]
  refine ⟨?_, hfailed, s, hsource.trans hs, ?_, ?_⟩
  · simp only [hsource, hrecords, htail, hconflicts]
  · rw [hrecords]
    exact hauth
  · rw [hrecords]

omit [DecidableEq D] in
/-- The two states of a drain are different. -/
theorem Proposal.Issued.pre_not_post (hp : p.Issued cfg) {st : Store D} (hpre : p.Pre st) :
    ¬ p.Post st := by
  intro hpost
  have hsource := Option.some.inj (hpre.source.symm.trans hpost.source)
  have hcount : p.source.committedCount = p.newCount := (snapshot_frontier hsource).1
  have hlen : p.records.length = 0 := by rw [hp.newCount, hp.frontier] at hcount; omega
  rcases hp.changes with hne | ⟨-, hne⟩
  · exact hne (List.eq_nil_of_length_eq_zero hlen)
  · exact hne (hpost.tail.symm.trans hpre.tail)

/-- The verdict over the durable rows of a writer. -/
theorem wp_recoverAmbiguous (hrows : Ordered w.store.records) (hp : p.Issued cfg)
    (error : CommitError) :
    wp (recoverAmbiguous cfg error p) w
      (fun n t => n = p.newCount ∧ p.Post w.store ∧ Authenticates cfg w.store ∧
        Reconciled cfg w t)
      (fun e t => e = error.report ∧ p.Pre w.store ∧ ¬ p.Post w.store ∧
          Authenticates cfg w.store ∧ Reconciled cfg w t ∨
        (∃ text, e = .fatal text) ∧
          ¬ (Authenticates cfg w.store ∧ (p.Post w.store ∨ p.Pre w.store)) ∧ t.failed = true) := by
  have hexpected : p.expected ≤ maxProtocolUint32 := by
    have := hp.bounded
    rw [hp.newCount] at this
    omega
  have hseen := @wp_inspectAmbiguousDrain D _ cfg
    { w with store := { w.store with digestCache := none } } rfl hrows _ hexpected _ hp.limit
  simp only [recoverAmbiguous, discardDigest, wp_bind, wp_modify, wp_tryCatch, wp_failStop]
  apply wp_mono hseen
  · intro seen u hinspected
    obtain ⟨current, actualTail, proposedRows, authenticated⟩ := seen
    obtain ⟨hcurrent, htail, habsent, hpresent, hstore, hfailed⟩ := hinspected
    simp only at hcurrent htail habsent hpresent hstore hfailed
    cases hs : w.store.source with
    | none =>
      rw [hs] at hcurrent
      rw [hcurrent]
      refine .inr ⟨⟨_, rfl⟩, ?_, rfl⟩
      rintro ⟨-, h | h⟩
      · simpa [hs] using h.source
      · simpa [hs] using h.source
    | some s =>
      obtain ⟨hauth, rfl, rfl⟩ := hpresent s hs
      have hall : Authenticates cfg w.store := by
        intro s' hs'
        obtain rfl := Option.some.inj (hs.symm.trans hs')
        exact hauth
      rw [hs] at hcurrent
      rw [hcurrent, htail]
      simp only [wp_ite, wp_bind, publishDigest, wp_modify, wp_pure, wp_throw, wp_failStop,
        post_iff hp hs hauth, pre_iff hp hs hauth]
      refine ⟨fun hpost => ⟨trivial, hpost, hall, ?_⟩,
        fun hpost => ⟨fun hpre => ?_, fun hpre => ?_⟩⟩
      · have hsame := hpost.source
        rw [hs, Option.map_some, Option.some.injEq] at hsame
        exact reconciled_of hs hauth hstore hfailed (snapshot_frontier hsame).1
          (snapshot_frontier hsame).2
      · have hsame := hpre.source
        rw [hs, Option.map_some, Option.some.injEq] at hsame
        exact .inl ⟨trivial, hpre, hpost, hall, reconciled_of hs hauth hstore hfailed
          (snapshot_frontier hsame).1 (snapshot_frontier hsame).2⟩
      · refine .inr ⟨⟨_, rfl⟩, ?_, trivial⟩
        rintro ⟨-, h | h⟩
        · exact hpost h
        · exact hpre h
  · intro e u hnot
    exact .inr ⟨⟨_, rfl⟩, fun h => hnot h.1, trivial⟩

end Inspections

/-! ### Drains whose commit is ambiguous -/

section Drains

variable {cfg : StoreConfig D} {w : Writer D}

/-- The two ways to reach an ambiguous drain. -/
inductive Drain (D : Type) where
  | append (now : ℕ) (source : CaptureSource D) (expected : ℕ) (rawRecords : List Bytes)
      (expectedSha256 : Option D) (tail : Option CaptureTail)
  | tailOnly (source : CaptureSource D) (previous desired : Option CaptureTail)

def Drain.run (cfg : StoreConfig D) : Drain D → Commit D → WriterM D ℕ
  | .append now source expected rawRecords expectedSha256 tail, commit =>
    appendDrainCommit cfg now source expected rawRecords expectedSha256 tail commit
  | .tailOnly source previous desired, commit =>
    commitReplayTailCommit cfg source previous desired commit

/-- What `commit_drain` and `commit_tail` pass: whole records at the frontier within one chunk, or
a tail that changes. -/
def Drain.Issued (cfg : StoreConfig D) : Drain D → Prop
  | .append _ source expected rawRecords _ _ => expected = source.committedCount ∧
      rawRecords ≠ [] ∧ rawRecords.length ≤ cfg.chunkLimit ∧
      ∀ raw ∈ rawRecords, raw.length = audioRecordSize
  | .tailOnly source previous desired => desired ≠ previous ∧
      source.committedCount ≤ maxProtocolUint32

/-- The first ordinal of the drain and how many rows it proposes. -/
def Drain.span : Drain D → ℕ × ℕ
  | .append _ _ expected rawRecords _ _ => (expected, rawRecords.length)
  | .tailOnly source _ _ => (source.committedCount, 0)

/-- Two states agree on the source row, the rows of the drain and the tail. -/
structure Drain.Agree (d : Drain D) (st t : Store D) : Prop where
  source : t.source.map snapshot = st.source.map snapshot
  records : rowsIn d.span.1 d.span.2 t.records = rowsIn d.span.1 d.span.2 st.records
  tail : t.tail = st.tail

theorem exec_bind_ok {σ ε α β : Type} {x : Refusable σ ε α} {f : α → Refusable σ ε β} {s t : σ}
    {b : β} : exec (x >>= f) s = (.ok b, t) ↔
      ∃ a u, exec x s = (.ok a, u) ∧ exec (f a) u = (.ok b, t) := by
  rw [exec_bind]
  cases h : exec x s with
  | mk r u =>
    cases r with
    | error e => simp
    | ok a => simp

theorem exec_bind_ran {σ ε α β : Type} {x : Refusable σ ε α} {f : α → Refusable σ ε β} {s u : σ}
    {a : α} (h : exec x s = (.ok a, u)) : exec (x >>= f) s = exec (f a) u := by
  rw [exec_bind, h]

omit [DecidableEq D] in
theorem exec_onStore_ok {α : Type} {x : StoreM D α} {u : Writer D} {a : α} :
    exec (onStore x) w = (.ok a, u) ↔ exec x w.store = (.ok a, u.store) ∧ u.failed = w.failed := by
  rw [exec_onStore]
  obtain ⟨store, failed⟩ := u
  cases h : exec x w.store with
  | mk r st =>
    cases r with
    | error e => simp
    | ok b =>
      simp only [Prod.mk.injEq, Except.ok.injEq, Writer.mk.injEq]
      constructor
      · rintro ⟨rfl, rfl, rfl⟩
        exact ⟨⟨rfl, rfl⟩, rfl⟩
      · rintro ⟨⟨rfl, rfl⟩, rfl⟩
        exact ⟨rfl, rfl, rfl⟩

theorem exec_refuseIf_ok {σ ε : Type} {c : Prop} [Decidable c] {e : ε} {s t : σ} {u : PUnit} :
    exec (refuseIf c e : Refusable σ ε PUnit) s = (.ok u, t) ↔ ¬ c ∧ t = s := by
  by_cases h : c
  · simp only [refuseIf, h, if_true, not_true_eq_false, false_and, iff_false]
    intro hrun
    cases hrun
  · simp only [refuseIf, h, if_false, not_false_eq_true, true_and]
    constructor
    · intro hrun
      cases hrun
      rfl
    · rintro rfl
      rfl

/-- A step that completes only in states related to the one it starts from. -/
theorem wp_exec_ok {σ ε α : Type} {x : Refusable σ ε α} {s t : σ} {a : α} {Q : α → σ → Prop}
    (h : exec x s = (.ok a, t)) (hx : wp x s Q (fun _ _ => True)) : Q a t := by
  rwa [wp_of_exec h] at hx

theorem digestState_frame {source : CaptureSource D} {st : Store D} :
    wp (digestState cfg source) st (fun _ t => t = { st with digestCache := t.digestCache })
      (fun _ _ => True) := by
  simp only [digestState, wp_bind, wp_get]
  cases hcached : cachedDigest st source with
  | some state => exact rfl
  | none =>
    simp only [scanDigest, wp_bind, wp_get]
    cases hashPages (frontierCheck source.committedCount) st.records cfg.chunkLimit
        (st.records.length + 1) 0 [] with
    | error e => trivial
    | ok x => simp

theorem wp_true {σ ε α : Type} (x : Refusable σ ε α) (s : σ) :
    wp x s (fun _ _ => True) (fun _ _ => True) := by
  unfold wp
  split <;> trivial

theorem assertTailPrefix_frame {now : ℕ} {source : CaptureSource D} {tail : CaptureTail}
    {fullRecord : Bytes} {st : Store D} :
    wp (assertTailPrefix cfg now source tail fullRecord) st (fun _ t => t = st)
      (fun _ _ => True) := by
  by_cases h : tail.data.isPrefixOf fullRecord
  · rw [assertTailPrefix, if_pos h]
    exact rfl
  · rw [assertTailPrefix, if_neg h, wp_bind]
    exact wp_mono (wp_true _ _) (fun _ _ _ => trivial) (fun _ _ _ => trivial)

omit [DecidableEq D] in
theorem validateTail_frame {incoming : Option CaptureTail} {source : CaptureSource D}
    {newCount : ℕ} {st : Store D} :
    wp (validateTail incoming source newCount) st (fun _ t => t = st) (fun _ _ => True) := by
  cases incoming with
  | none => exact rfl
  | some tail => simp [validateTail]

theorem checkPreviousTail_frame {now : ℕ} {source : CaptureSource D}
    {previous : Option CaptureTail} {newCount : ℕ} {appended : List CaptureRecord} {st : Store D} :
    wp (checkPreviousTail cfg now source previous newCount appended) st (fun _ t => t = st)
      (fun _ _ => True) := by
  cases previous with
  | none => exact rfl
  | some stored =>
    simp only [checkPreviousTail, wp_bind, wp_refuseIf, wp_ite, wp_requireSome, wp_pure,
      implies_true, true_and]
    intro _
    exact ⟨fun _ _ _ => assertTailPrefix_frame, trivial⟩

omit [DecidableEq D] in
theorem completedRecord_frame {source : CaptureSource D} {ordinal : ℤ}
    {appended : List CaptureRecord} {st : Store D} :
    wp (completedRecord cfg source ordinal appended) st (fun _ t => t = st) (fun _ _ => True) := by
  simp [completedRecord, readRecordPage, -map_bind, -bind_pure_comp]

/-- A resolved tail leaves the rows as they were. -/
theorem resolveTail_frame {now : ℕ} {source : CaptureSource D}
    {previous incoming : Option CaptureTail} {newCount : ℕ} {appended : List CaptureRecord}
    {st : Store D} : wp (resolveTail cfg now source previous incoming newCount appended) st
      (fun _ t => t = st) (fun _ _ => True) := by
  simp only [resolveTail, wp_bind]
  apply wp_mono validateTail_frame _ (fun _ _ _ => trivial)
  rintro _ t rfl
  apply wp_mono checkPreviousTail_frame _ (fun _ _ _ => trivial)
  rintro _ t rfl
  cases incoming with
  | none => exact rfl
  | some tail =>
    simp only [wp_ite, wp_bind, wp_pure]
    refine ⟨fun _ => ?_, fun _ => ?_⟩
    · apply wp_mono completedRecord_frame _ (fun _ _ _ => trivial)
      rintro _ t rfl
      apply wp_mono assertTailPrefix_frame _ (fun _ _ _ => trivial)
      rintro _ t rfl
      rfl
    · cases previous with
      | none => exact rfl
      | some stored =>
        simp only [wp_ite, wp_bind, wp_pure]
        refine ⟨fun _ => trivial, fun _ => ⟨fun _ => trivial, fun _ => ⟨fun _ => ?_, fun _ => trivial⟩⟩⟩
        exact wp_mono (wp_true _ _) (fun _ _ _ => trivial) (fun _ _ _ => trivial)

theorem recheckSource_frame {source : CaptureSource D} {st : Store D} :
    wp (recheckSource source) st
      (fun _ t => t = st ∧ st.source.map snapshot = some (snapshot source)) (fun _ _ => True) := by
  simp only [recheckSource, checkSourceSnapshot, validateReceivingLeg, wp_bind, wp_get, wp_refuseIf,
    implies_true, true_and]
  intro hsource _ _ _ _
  exact not_not.mp hsource

omit [DecidableEq D] in
theorem recheckTail_frame {previous : Option CaptureTail} {st : Store D} :
    wp (recheckTail previous) st (fun _ t => t = st ∧ st.tail = previous) (fun _ _ => True) := by
  simp [recheckTail]

theorem mem_rowsIn {first count : ℕ} {rows : List CaptureRecord} {r : CaptureRecord} :
    r ∈ rowsIn first count rows ↔ r ∈ rows ∧ first ≤ r.ordinal ∧ r.ordinal < first + count := by
  simp only [rowsIn, List.mem_filter, decide_eq_true_eq]
  constructor
  · rintro ⟨⟨hr, hlow⟩, hhigh⟩
    exact ⟨hr, by omega, hhigh⟩
  · rintro ⟨hr, hlow, hhigh⟩
    exact ⟨⟨hr, by omega⟩, hhigh⟩

theorem rowsIn_eq_nil {first count : ℕ} {rows : List CaptureRecord}
    (h : ∀ r ∈ rows, ¬ (first ≤ r.ordinal ∧ r.ordinal < first + count)) :
    rowsIn first count rows = [] := by
  rw [List.eq_nil_iff_forall_not_mem]
  intro r hr
  obtain ⟨hmem, hwindow⟩ := mem_rowsIn.mp hr
  exact h r hmem hwindow

theorem rowsIn_contiguous {first : ℕ} {rows : List CaptureRecord} (h : Contiguous first rows) :
    rowsIn first rows.length rows = rows := by
  rw [rowsIn, h.filter_after, Nat.sub_self, List.drop_zero, h.filter_before, List.take_length]

/-- The inserted rows are what the window then holds, and it held nothing before. -/
theorem rowsIn_insertRecords {rows new out : List CaptureRecord} (hrows : Ordered rows) {first : ℕ}
    (hnew : Contiguous first new) (h : new.foldlM insertRecord rows = some out) :
    rowsIn first new.length out = new ∧ rowsIn first new.length rows = [] := by
  obtain ⟨hordered, hperm, hfresh⟩ := insertRecords_ordered hrows h
  have hbefore : rowsIn first new.length rows = [] := by
    apply rowsIn_eq_nil
    rintro r hr ⟨hlow, hhigh⟩
    have hk : r.ordinal - first < new.length := by omega
    have hat := hnew.ordinal (List.getElem?_eq_getElem hk)
    exact hfresh _ (List.getElem_mem hk) r hr (by omega)
  have hsorted : Ordered (rowsIn first new.length out) :=
    List.Pairwise.filter _ (List.Pairwise.filter _ hordered)
  have hwindow : (rowsIn first new.length out).Perm new := by
    have hfilter : (rowsIn first new.length out).Perm (rowsIn first new.length (rows ++ new)) :=
      (hperm.filter _).filter _
    have happend : rowsIn first new.length (rows ++ new) =
        rowsIn first new.length rows ++ rowsIn first new.length new := by
      rw [rowsIn, List.filter_append, List.filter_append]
      rfl
    rwa [happend, hbefore, rowsIn_contiguous hnew, List.nil_append] at hfilter
  refine ⟨?_, hbefore⟩
  have hantisymm : ∀ a b : CaptureRecord, a ∈ rowsIn first new.length out → b ∈ new →
      a.ordinal < b.ordinal → b.ordinal < a.ordinal → a = b := by
    intro a b _ _ hab hba
    omega
  exact List.Perm.eq_of_pairwise hantisymm hsorted hnew.ordered hwindow

theorem exec_get {σ ε : Type} (s : σ) : exec (get : Refusable σ ε σ) s = (.ok s, s) := rfl

theorem exec_requireSome_ok {σ ε α : Type} {o : Option α} {e : ε} {s t : σ} {a : α} :
    exec (requireSome o e : Refusable σ ε α) s = (.ok a, t) ↔ o = some a ∧ t = s := by
  cases o with
  | none =>
    constructor
    · intro h
      cases h
    · rintro ⟨h, -⟩
      cases h
  | some b =>
    constructor
    · intro h
      cases h
      exact ⟨rfl, rfl⟩
    · rintro ⟨h, rfl⟩
      cases h
      rfl

/-- How a drain that can commit is reconciled when its commit is ambiguous: as one proposal whose
two states are the states around the drain. -/
structure Proposes (cfg : StoreConfig D) (d : Drain D) (w : Writer D) (n : ℕ) (post : Writer D)
    (p : Proposal D) (u : Writer D) : Prop where
  issued : p.Issued cfg
  count : n = p.newCount
  run : ∀ error found, exec (d.run cfg (.ambiguous error found)) w =
    exec (recoverAmbiguous cfg error p) (reopened u found)
  failed : u.failed = w.failed
  post : ∀ st, p.Post st ↔ d.Agree post.store st
  pre : ∀ st, p.Pre st ↔ d.Agree w.store st
  read : p.expected = d.span.1 ∧ p.records.length = d.span.2

theorem proposes_tailOnly {source : CaptureSource D} {previous desired : Option CaptureTail}
    (hissued : (Drain.tailOnly source previous desired).Issued cfg) {n : ℕ} {post : Writer D}
    (h : exec ((Drain.tailOnly source previous desired).run cfg .applied) w = (.ok n, post)) :
    ∃ p u, Proposes cfg (.tailOnly source previous desired) w n post p u := by
  obtain ⟨hne, hbound⟩ := hissued
  rw [Drain.run, commitReplayTailCommit] at h
  obtain ⟨_, u₁, hsource, h⟩ := exec_bind_ok.mp h
  obtain ⟨_, u₂, htail, h⟩ := exec_bind_ok.mp h
  obtain ⟨hsourceRun, hfailed₁⟩ := exec_onStore_ok.mp hsource
  obtain ⟨htailRun, hfailed₂⟩ := exec_onStore_ok.mp htail
  obtain ⟨hstore₁, hsnapshot⟩ := wp_exec_ok hsourceRun recheckSource_frame
  obtain ⟨hstore₂, hprevious⟩ := wp_exec_ok htailRun recheckTail_frame
  rw [hstore₁] at hstore₂ hprevious
  have hresult : n = source.committedCount ∧
      post = { u₂ with store := { u₂.store with tail := desired } } := by
    cases h
    exact ⟨rfl, rfl⟩
  obtain ⟨rfl, rfl⟩ := hresult
  refine ⟨⟨source, source.committedCount, [], source.committedCount, source.committedSha256, desired,
    previous⟩, u₂, ?_⟩
  have hempty : ∀ rows, rowsIn source.committedCount 0 rows = [] :=
    fun rows => rowsIn_eq_nil (fun r _ h => by omega)
  refine ⟨⟨rfl, rfl, hbound, Nat.zero_le _, by simp, contiguous_nil _, .inr ⟨rfl, hne⟩⟩, rfl, ?_,
    hfailed₂.trans hfailed₁, ?_, ?_, rfl, rfl⟩
  · intro error found
    refine (exec_bind_ran hsource).trans ?_
    exact exec_bind_ran htail
  · intro st
    constructor
    · rintro ⟨hs, hr, ht⟩
      refine ⟨?_, (hempty _).trans (hempty _).symm, ht⟩
      rw [hs, hstore₂, hsnapshot]
    · rintro ⟨hs, hr, ht⟩
      refine ⟨?_, hempty _, ht⟩
      rw [hs, hstore₂, hsnapshot]
  · intro st
    constructor
    · rintro ⟨hs, hr, ht⟩
      exact ⟨hs.trans hsnapshot.symm, (hempty _).trans (hempty _).symm, ht.trans hprevious.symm⟩
    · rintro ⟨hs, hr, ht⟩
      exact ⟨hs.trans hsnapshot, hempty _, ht.trans hprevious⟩

/-- The steps of an append before its commit, which both outcomes of the commit share, and the
state that an applied commit leaves. -/
structure AppendRun (cfg : StoreConfig D) (now : ℕ) (source : CaptureSource D) (expected : ℕ)
    (rawRecords : List Bytes) (expectedSha256 : Option D) (tail : Option CaptureTail)
    (w : Writer D) (n : ℕ) (post : Writer D) (state : Bytes) (desired : Option CaptureTail)
    (u : Writer D) : Prop where
  bound : expected + rawRecords.length ≤ maxProtocolUint32
  count : n = expected + rawRecords.length
  digest : ∃ st, exec (digestState cfg source) w.store = (.ok state, st)
  current : w.store.source.map snapshot = some (snapshot source)
  inserted : (parseRecords expected rawRecords).foldlM insertRecord w.store.records =
    some post.store.records
  postSource : post.store.source = some { source with
    committedCount := expected + rawRecords.length
    committedSha256 := cfg.sha256 (state ++ rawLog (parseRecords expected rawRecords)) }
  postTail : post.store.tail = desired
  failed : u.failed = w.failed
  run : ∀ error found, exec (appendDrainCommit cfg now source expected rawRecords expectedSha256 tail
      (.ambiguous error found)) w =
    exec (recoverAmbiguous cfg error ⟨source, expected, parseRecords expected rawRecords,
      expected + rawRecords.length, cfg.sha256 (state ++ rawLog (parseRecords expected rawRecords)),
      desired, w.store.tail⟩) (reopened u found)

theorem append_run {now : ℕ} {source : CaptureSource D} {expected : ℕ} {rawRecords : List Bytes}
    {expectedSha256 : Option D} {tail : Option CaptureTail} {n : ℕ} {post : Writer D}
    (h : exec (appendDrainCommit cfg now source expected rawRecords expectedSha256 tail .applied) w =
      (.ok n, post)) : ∃ state desired u, AppendRun cfg now source expected rawRecords expectedSha256
        tail w n post state desired u := by
  rw [appendDrainCommit] at h
  obtain ⟨_, u₀, hrange, h₁⟩ := exec_bind_ok.mp h
  obtain ⟨state, u₁, hdigest, h₂⟩ := exec_bind_ok.mp h₁
  obtain ⟨_, u₂, hstated, h₃⟩ := exec_bind_ok.mp h₂
  obtain ⟨v₃, u₃, hget, h₄⟩ := exec_bind_ok.mp h₃
  obtain ⟨desired, u₄, hresolve, h₅⟩ := exec_bind_ok.mp h₄
  obtain ⟨_, u₅, hsource, h₆⟩ := exec_bind_ok.mp h₅
  obtain ⟨_, u₆, htail, h₇⟩ := exec_bind_ok.mp h₆
  obtain ⟨v₇, u₇, hget', h₈⟩ := exec_bind_ok.mp h₇
  obtain ⟨rows, u₈, hinsert, h₉⟩ := exec_bind_ok.mp h₈
  obtain ⟨hinside, hu₀⟩ := exec_refuseIf_ok.mp hrange
  obtain ⟨-, hu₂⟩ := exec_refuseIf_ok.mp hstated
  obtain ⟨hv₃, hu₃⟩ : v₃ = u₂ ∧ u₃ = u₂ := by cases hget; exact ⟨rfl, rfl⟩
  obtain ⟨hv₇, hu₇⟩ : v₇ = u₆ ∧ u₇ = u₆ := by cases hget'; exact ⟨rfl, rfl⟩
  obtain ⟨hdigestRun, hfailed₁⟩ := exec_onStore_ok.mp hdigest
  obtain ⟨hresolveRun, hfailed₄⟩ := exec_onStore_ok.mp hresolve
  obtain ⟨hsourceRun, hfailed₅⟩ := exec_onStore_ok.mp hsource
  obtain ⟨htailRun, hfailed₆⟩ := exec_onStore_ok.mp htail
  have hstore₁ := wp_exec_ok hdigestRun digestState_frame
  have hstore₄ := wp_exec_ok hresolveRun resolveTail_frame
  obtain ⟨hstore₅, hsnapshot⟩ := wp_exec_ok hsourceRun recheckSource_frame
  obtain ⟨hstore₆, -⟩ := wp_exec_ok htailRun recheckTail_frame
  obtain ⟨hinserted, hu₈⟩ := exec_requireSome_ok.mp hinsert
  -- only the digest cache has changed so far
  have hwhole : u₆.store = { w.store with digestCache := u₁.store.digestCache } := by
    rw [hstore₆, hstore₅, hstore₄, hu₃, hu₂, hstore₁, hu₀]
  have hprevious : v₃.store.tail = w.store.tail := by rw [hv₃, hu₂, hstore₁, hu₀]
  have hpost : n = expected + rawRecords.length ∧ post.store.source = some { source with
      committedCount := expected + rawRecords.length
      committedSha256 := cfg.sha256 (state ++ rawLog (parseRecords expected rawRecords)) } ∧
      post.store.records = rows ∧ post.store.tail = desired := by
    cases h₉
    exact ⟨rfl, rfl, rfl, rfl⟩
  obtain ⟨hn, hpostSource, hpostRecords, hpostTail⟩ := hpost
  refine ⟨state, desired, u₆, by omega, hn, ⟨u₁.store, hu₀ ▸ hdigestRun⟩, ?_, ?_, hpostSource,
    hpostTail, ?_, ?_⟩
  · rw [← hsnapshot, hstore₄, hu₃, hu₂, hstore₁, hu₀]
  · rw [hpostRecords, ← hinserted, hv₇, hwhole]
  · rw [hfailed₆, hfailed₅, hfailed₄, hu₃, hu₂, hfailed₁, hu₀]
  · intro error found
    refine (exec_bind_ran hrange).trans ?_
    refine (exec_bind_ran hdigest).trans ?_
    refine (exec_bind_ran hstated).trans ?_
    refine (exec_bind_ran hget).trans ?_
    refine (exec_bind_ran hresolve).trans ?_
    refine (exec_bind_ran hsource).trans ?_
    refine (exec_bind_ran htail).trans ?_
    refine (exec_bind_ran hget').trans ?_
    refine (exec_bind_ran hinsert).trans ?_
    rw [hu₈, hu₇, ← hprevious]
    rfl

theorem proposes_append {now : ℕ} {source : CaptureSource D} {expected : ℕ}
    {rawRecords : List Bytes} {expectedSha256 : Option D} {tail : Option CaptureTail}
    (hissued : (Drain.append now source expected rawRecords expectedSha256 tail).Issued cfg)
    (hrows : Ordered w.store.records) {n : ℕ} {post : Writer D}
    (h : exec ((Drain.append now source expected rawRecords expectedSha256 tail).run cfg .applied) w =
      (.ok n, post)) :
    ∃ p u, Proposes cfg (.append now source expected rawRecords expectedSha256 tail) w n post p u := by
  obtain ⟨hfrontier, hne, hlimit, hraw⟩ := hissued
  obtain ⟨state, desired, u, hrun⟩ := append_run h
  obtain ⟨hafter, hbefore⟩ := rowsIn_insertRecords hrows (parseRecords_contiguous expected rawRecords)
    hrun.inserted
  rw [length_parseRecords] at hafter hbefore
  refine ⟨⟨source, expected, parseRecords expected rawRecords, expected + rawRecords.length,
    cfg.sha256 (state ++ rawLog (parseRecords expected rawRecords)), desired, w.store.tail⟩, u, ?_⟩
  refine ⟨⟨hfrontier, by simp, hrun.bound, by simpa using hlimit, parseRecords_valid hrun.bound hraw,
    parseRecords_contiguous _ _, .inl ?_⟩, hrun.count, hrun.run, hrun.failed, ?_, ?_, rfl, by
      simp [Drain.span]⟩
  · intro hnil
    have hlength := congrArg List.length hnil
    rw [length_parseRecords, List.length_nil] at hlength
    exact hne (List.eq_nil_of_length_eq_zero hlength)
  · intro st
    constructor
    · rintro ⟨hs, hr, ht⟩
      rw [length_parseRecords] at hr
      exact ⟨by rw [hs, hrun.postSource]; rfl, hr.trans hafter.symm, ht.trans hrun.postTail.symm⟩
    · rintro ⟨hs, hr, ht⟩
      refine ⟨by rw [hs, hrun.postSource]; rfl, ?_, ht.trans hrun.postTail⟩
      rw [length_parseRecords]
      exact hr.trans hafter
  · intro st
    constructor
    · rintro ⟨hs, hr, ht⟩
      rw [length_parseRecords] at hr
      exact ⟨hs.trans hrun.current.symm, hr.trans hbefore.symm, ht⟩
    · rintro ⟨hs, hr, ht⟩
      refine ⟨hs.trans hrun.current, ?_, ht⟩
      rw [length_parseRecords]
      exact hr.trans hbefore

/-- Every drain that can commit is one proposal. -/
theorem proposes_of_commit {d : Drain D} (hissued : d.Issued cfg) (hrows : Ordered w.store.records)
    {n : ℕ} {post : Writer D} (h : exec (d.run cfg .applied) w = (.ok n, post)) :
    ∃ p u, Proposes cfg d w n post p u := by
  cases d with
  | append now source expected rawRecords expectedSha256 tail =>
    exact proposes_append hissued hrows h
  | tailOnly source previous desired => exact proposes_tailOnly hissued h

/-- With the hash state of the accepted rows in the cache, the next append stores the digest of
all rows. -/
theorem append_digest {s : CaptureSource D} (hauth : Authentic cfg s w.store.records)
    (hcache : w.store.digestCache =
      some (s.committedCount, s.committedSha256, rawLog w.store.records))
    {now : ℕ} {rawRecords : List Bytes} {expectedSha256 : Option D} {tail : Option CaptureTail}
    (hissued : (Drain.append now s s.committedCount rawRecords expectedSha256 tail).Issued cfg)
    {n : ℕ} {post : Writer D}
    (h : exec ((Drain.append now s s.committedCount rawRecords expectedSha256 tail).run cfg .applied)
      w = (.ok n, post)) :
    post.store.source.map (·.committedSha256) = some (cfg.sha256 (rawLog post.store.records)) := by
  obtain ⟨-, -, -, hraw⟩ := hissued
  obtain ⟨state, desired, u, hrun⟩ := append_run h
  have hcached : exec (digestState cfg s) w.store = (.ok (rawLog w.store.records), w.store) := by
    have hhit : cachedDigest w.store s = some (rawLog w.store.records) := by
      simp [cachedDigest, hcache]
    unfold digestState
    rw [exec_bind, exec_get]
    simp only [hhit]
    rfl
  obtain ⟨st, hstate⟩ := hrun.digest
  have hstate : state = rawLog w.store.records := by
    rw [hcached] at hstate
    cases hstate
    rfl
  have hnew : Contiguous w.store.records.length (parseRecords s.committedCount rawRecords) := by
    rw [hauth.count]
    exact parseRecords_contiguous _ _
  have hrows := hrun.inserted.symm.trans
    (foldlM_insertRecord hauth.contiguous hnew (parseRecords_valid hrun.bound hraw))
  rw [hrun.postSource, Option.some.inj hrows, rawLog_append, hstate]
  rfl

/-! ### The verdict -/

/-- The state that the reopened database holds, with nothing cached. -/
def Durable.store (found : Durable D) : Store D :=
  ⟨found.source, found.records, found.tail, found.conflicts, none⟩

/-- A writer that stopped refuses every operation that changes rows. -/
theorem failed_refuses {t : Writer D} (hfailed : t.failed = true) :
    (∀ call : Call D, call ≠ .reopen → exec (operate cfg call) t =
      (.error (.refused "audio store is fail-stopped"), t)) ∧
    ∀ body : StoreM D Unit, exec (publicationTransaction body) t =
      (.error (.refused "audio store is fail-stopped"), t) := by
  have hcheck : exec (checkWriter : WriterM D Unit) t =
      (.error (.refused "audio store is fail-stopped"), t) := by
    change exec (refuseIf (t.failed = true) _) t = _
    rw [refuseIf, if_pos hfailed]
    rfl
  constructor
  · intro call hcall
    cases call with
    | reopen => exact absurd rfl hcall
    | _ =>
      change exec (checkWriter >>= fun _ => _) t = _
      rw [exec_bind, hcheck]
  · intro body
    change exec (checkWriter >>= fun _ => _) t = _
    rw [exec_bind, hcheck]

omit [DecidableEq D] in
theorem Drain.agree_reopened {d : Drain D} {st : Store D} {u : Writer D} {found : Durable D} :
    d.Agree st (reopened u found).store ↔ d.Agree st found.store :=
  ⟨fun h => ⟨h.source, h.records, h.tail⟩, fun h => ⟨h.source, h.records, h.tail⟩⟩

/-- What a verdict leaves: the rows as they were found, with their digest in the cache, so that the
next append stores the digest of all rows. -/
structure Settled (cfg : StoreConfig D) (w : Writer D) (found : Durable D) (t : Writer D) : Prop where
  failed : t.failed = w.failed
  records : t.store.records = found.records
  digest : ∃ s, t.store.source = some s ∧ found.source = some s ∧ t.store.digestCache =
      some (s.committedCount, cfg.sha256 (rawLog found.records), rawLog found.records) ∧
    ∀ now rawRecords expectedSha256 tail m later,
      (Drain.append now s s.committedCount rawRecords expectedSha256 tail).Issued cfg →
      exec ((Drain.append now s s.committedCount rawRecords expectedSha256 tail).run cfg
        .applied) t = (.ok m, later) →
      later.store.source.map (·.committedSha256) =
        some (cfg.sha256 (rawLog later.store.records))

theorem Reconciled.settled {u t : Writer D} {found : Durable D}
    (h : Reconciled cfg (reopened u found) t) (hfailed : u.failed = w.failed) :
    Settled cfg w found t := by
  obtain ⟨hstore, hsame, s, hsource, hauth, hcache⟩ := h
  have hrecords : t.store.records = found.records := by rw [hstore]; rfl
  have hfound : found.source = some s := by rw [← hsource, hstore]; rfl
  refine ⟨hsame.trans hfailed, hrecords, s, hsource, hfound, ?_, ?_⟩
  · rw [hcache, ← hrecords, hauth.digest]
  · intro now rawRecords expectedSha256 tail m later hnext hrun
    exact append_digest hauth hcache hnext hrun

/-- An ambiguous commit is classified exactly, whatever the database holds after it. The drain
returns its new count if and only if the rows authenticate and are the state a commit leaves, and
reports a rollback if and only if they authenticate and are the state before. In every other case,
of rows that do not authenticate as well, it stops the writer, which then refuses every operation
that changes rows. After a verdict the cached digest is the one of the durable rows, and so is the
digest that the next append stores. -/
theorem ambiguous_commit_exact {d : Drain D} (hissued : d.Issued cfg)
    (hrows : Ordered w.store.records) {n : ℕ} {post : Writer D}
    (hcommit : exec (d.run cfg .applied) w = (.ok n, post)) (error : CommitError)
    (found : Durable D) {result : Except Failure ℕ} {t : Writer D}
    (hresult : exec (d.run cfg (.ambiguous error found)) w = (result, t)) :
    (∀ m, result = .ok m ↔
      m = n ∧ d.Agree post.store found.store ∧ Authenticates cfg found.store) ∧
    (result = .error error.report ↔
      d.Agree w.store found.store ∧ Authenticates cfg found.store) ∧
    (¬ (Authenticates cfg found.store ∧
        (d.Agree post.store found.store ∨ d.Agree w.store found.store)) →
      (∃ text, result = .error (.fatal text)) ∧
      (∀ call : Call D, call ≠ .reopen → exec (operate cfg call) t =
        (.error (.refused "audio store is fail-stopped"), t)) ∧
      ∀ body : StoreM D Unit, exec (publicationTransaction body) t =
        (.error (.refused "audio store is fail-stopped"), t)) ∧
    ((∃ m, result = .ok m) ∨ result = .error error.report → Settled cfg w found t) := by
  obtain ⟨p, u, hp⟩ := proposes_of_commit hissued hrows hcommit
  have hpost := (hp.post (reopened u found).store).trans Drain.agree_reopened
  have hpre := (hp.pre (reopened u found).store).trans Drain.agree_reopened
  have hverdict := wp_recoverAmbiguous (w := reopened u found) found.ordered hp.issued error
  rw [hp.run] at hresult
  rw [wp, hresult] at hverdict
  have hauthenticates : Authenticates cfg (reopened u found).store ↔
      Authenticates cfg found.store := Iff.rfl
  simp only [hpost, hpre, hauthenticates] at hverdict
  have hapart : d.Agree w.store found.store → ¬ d.Agree post.store found.store :=
    fun h h' => hp.issued.pre_not_post (hpre.mpr h) (hpost.mpr h')
  cases result with
  | ok m =>
    obtain ⟨hm, hagree, hauth, hrest⟩ := hverdict
    refine ⟨fun k => ?_, ?_, fun h => absurd ⟨hauth, .inl hagree⟩ h,
      fun _ => hrest.settled hp.failed⟩
    · constructor
      · intro hk
        cases hk
        exact ⟨hm.trans hp.count.symm, hagree, hauth⟩
      · rintro ⟨rfl, -⟩
        rw [hm, hp.count]
    · constructor
      · intro h
        cases h
      · intro h
        exact absurd hagree (hapart h.1)
  | error e =>
    rcases hverdict with ⟨he, hagree, hnot, hauth, hrest⟩ | ⟨⟨text, he⟩, hnot, hfailed⟩
    · refine ⟨fun k => ?_, ?_, fun h => absurd ⟨hauth, .inr hagree⟩ h,
        fun _ => hrest.settled hp.failed⟩
      · constructor
        · intro h
          cases h
        · rintro ⟨-, h, -⟩
          exact absurd h hnot
      · rw [he]
        exact ⟨fun _ => ⟨hagree, hauth⟩, fun _ => rfl⟩
    · have hreport : (Except.error e : Except Failure ℕ) ≠ .error error.report := by
        rw [he]
        cases error <;> simp [CommitError.report]
      refine ⟨fun k => ?_, ?_, fun _ => ⟨⟨text, by rw [he]⟩, failed_refuses hfailed⟩, ?_⟩
      · constructor
        · intro h
          cases h
        · rintro ⟨-, h, hauth⟩
          exact absurd ⟨hauth, .inl h⟩ hnot
      · constructor
        · intro h
          exact absurd h hreport
        · rintro ⟨h, hauth⟩
          exact absurd ⟨hauth, .inr h⟩ hnot
      · rintro (⟨m, h⟩ | h)
        · cases h
        · exact absurd h hreport

end Drains

/-- The source row of a store that holds one row of a bound leg. -/
def receivingSource : CaptureSource Bytes :=
  CaptureConflicts.receivingStore.source.get (by decide +kernel)

theorem receivingStore_source : CaptureConflicts.receivingStore.source = some receivingSource :=
  (Option.some_get _).symm

theorem receivingStore_ordered : Ordered CaptureConflicts.receivingStore.records := by
  unfold Ordered
  decide +kernel

def receivingWriter : Writer Bytes := ⟨CaptureConflicts.receivingStore, false⟩

/-- The second record of the leg. -/
def secondRecord : Drain Bytes :=
  .append 0 receivingSource 1 [CaptureReplay.silence.record 1] none none

/-- The writer after the commit of the second record. -/
def committedWriter : Writer Bytes :=
  (exec (secondRecord.run CaptureReplay.transparentConfig .applied) receivingWriter).2

theorem secondRecord_commit : exec (secondRecord.run CaptureReplay.transparentConfig .applied)
    receivingWriter = (.ok 2, committedWriter) := by
  have hcount : (exec (secondRecord.run CaptureReplay.transparentConfig .applied)
      receivingWriter).1 = .ok 2 := by decide +kernel
  rw [committedWriter, ← hcount]

theorem committedWriter_ordered : Ordered committedWriter.store.records := by
  unfold Ordered
  decide +kernel

def committedSource : CaptureSource Bytes := committedWriter.store.source.get (by decide +kernel)

theorem committedWriter_source : committedWriter.store.source = some committedSource :=
  (Option.some_get _).symm

/-- The database still holds the state before the commit. -/
def rolledBack : Durable Bytes :=
  ⟨CaptureConflicts.receivingStore.source, CaptureConflicts.receivingStore.records,
    CaptureConflicts.receivingStore.tail, CaptureConflicts.receivingStore.conflicts,
    receivingStore_ordered⟩

/-- The database holds the state that the commit leaves. -/
def kept : Durable Bytes :=
  ⟨committedWriter.store.source, committedWriter.store.records, committedWriter.store.tail,
    committedWriter.store.conflicts, committedWriter_ordered⟩

/-- The database holds the source row of the commit without its record. -/
def halfKept : Durable Bytes :=
  ⟨committedWriter.store.source, CaptureConflicts.receivingStore.records,
    CaptureConflicts.receivingStore.tail, CaptureConflicts.receivingStore.conflicts,
    receivingStore_ordered⟩

/-- The commit of one record is reported as a rollback, returned, or stops the writer by what the
database holds. -/
theorem ambiguous_commit_exact_second :
    (exec (secondRecord.run CaptureReplay.transparentConfig (.ambiguous .other rolledBack))
      receivingWriter).1 = .error (.refused "ambiguous drain was rolled back") ∧
    (exec (secondRecord.run CaptureReplay.transparentConfig (.ambiguous .other kept))
      receivingWriter).1 = .ok 2 ∧
    ∃ text, (exec (secondRecord.run CaptureReplay.transparentConfig
      (.ambiguous .other halfKept)) receivingWriter).1 = .error (.fatal text) := by
  have hissued : secondRecord.Issued CaptureReplay.transparentConfig :=
    ⟨by decide +kernel, by decide, by decide, by decide +kernel⟩
  have hrows : Ordered receivingWriter.store.records := by
    simp only [receivingWriter]
    exact receivingStore_ordered
  have hverdict := fun found => ambiguous_commit_exact hissued hrows secondRecord_commit .other
    found Prod.mk.eta.symm
  have hsame : secondRecord.Agree receivingWriter.store rolledBack.store := by
    refine ⟨?_, ?_, ?_⟩ <;> simp only [rolledBack, receivingWriter, Durable.store]
  have hkept : secondRecord.Agree committedWriter.store kept.store := by
    refine ⟨?_, ?_, ?_⟩ <;> simp only [kept, Durable.store]
  refine ⟨(hverdict rolledBack).2.1.mpr ⟨hsame, ?_⟩, ((hverdict kept).1 2).mpr ⟨rfl, hkept, ?_⟩,
    ((hverdict halfKept).2.2.1 ?_).1⟩
  · intro s hs
    simp only [rolledBack, Durable.store, receivingStore_source, Option.some.injEq] at hs
    subst hs
    exact ⟨by unfold Contiguous; decide +kernel, by decide +kernel, by decide +kernel,
      by decide +kernel⟩
  · intro s hs
    simp only [kept, Durable.store, committedWriter_source, Option.some.injEq] at hs
    subst hs
    exact ⟨by unfold Contiguous; decide +kernel, by decide +kernel, by decide +kernel,
      by decide +kernel⟩
  · rintro ⟨hauth, -⟩
    have hcount := (hauth committedSource (by
      simp only [halfKept, Durable.store, committedWriter_source])).count
    revert hcount
    decide +kernel

end CaptureRecovery
