import Mathlib.Logic.Relation
import OmiCollector.PublicationMachine

/-! What the publication machine can do to its database, one durable step at a time.

Each constructor of `Effect` is one transaction or one directory write, with everything the
program has established when it takes that step. Invariants are proved once per constructor. -/
namespace PublicationEffects

open AudioMachine (AudioPhase CohortPhase)
open ByteCodec CaptureModel ClockModel KeyedTable SpanCover SpanWalk PublicationLedger
open TypedSlices SlicePartition PublicationGroups PublicationStage PublicationStore
open PublicationMachine

variable {D : Type} [DecidableEq D]

/-- Files of retired artifacts go away. -/
inductive Clears : Ledger D → Ledger D → Prop where
  | clear {l : Ledger D} {directories : Table D (Directory D)}
      (kept : ∀ id, ¬ l.IsRetired id → directories.get id = l.directories.get id) :
      Clears l { l with directories := directories }

/-- The ledger in which an artifact is retired and its proof is gone. -/
def recordRetirement (l : Ledger D) (id : D) (e : Entry D) : Ledger D :=
  { l with
    entries := l.entries.put id (AckRetirement.Entry.retire e)
    proofs := l.proofs.delete id }

/-- One ready artifact with its active proof is retired. -/
inductive Retires : Ledger D → Ledger D → Prop where
  | retire {l : Ledger D} {id : D} {e : Entry D} {p : ReplayProof D}
      (entry : l.entries.get id = some e) (ready : e.state = .ready)
      (proof : l.proofs.get id = some p) (active : p.lifecycle = .active) :
      Retires l (recordRetirement l id e)

/-- Admissions in memory stand for the members of the stored cohort and for their sources. -/
structure Held (db : Db D) (cohort : Cohort D) (admissions : List (Admission D)) : Prop where
  stored : db.cohort = some cohort
  members : admissions.map memberOf = cohort.members
  current : ∀ a ∈ admissions, ∃ row, db.sources.get a.sourceId = some row ∧
    snapshotCurrent row.source a

/-- A source that is admissible in the database as it is. -/
def Admissible (db : Db D) (a : Admission D) : Prop :=
  ∃ row, db.sources.get a.sourceId = some row ∧ typedAdmission a.sourceId row.source = .ok (some a)

/-- The unpublished rest of a cohort: what was computed in this call or would be computed again. -/
structure Remaining (codec : Codec D) (db : Db D) (admissions : List (Admission D))
    (slices : List (Slice D)) : Prop where
  partition : Partition codec db.sources (custody db.ledger) admissions slices
  after : ∀ s ∈ slices, AfterFrontier db.ledger.v2Frontier s.startSequence

/-- No published artifact proves the whole admission. -/
def Unproved (l : Ledger D) (a : Admission D) : Prop :=
  typedRetiredFullProof a (custody l) = none ∧
    ∃ x, a.remaining.Contains x ∧ ¬ CoveredBy (readyRuns (custody l)) x

/-- No cursor can move over ready artifacts any more. -/
def CustodyPassed (db : Db D) (admissions : List (Admission D)) : Prop :=
  ∀ a ∈ admissions, a.cursor = a.admittedCount ∨
    ¬ CoveredBy (readyRuns (custody db.ledger)) (a.sequenceStart + a.cursor)

def noUniqueSlices : String := "accepted v2 cohort has no unique source slices"

inductive Effect (codec : Codec D) : Db D × Log D → Db D × Log D → Prop where
  | custody {db : Db D} {log : Log D} {cohort : Cohort D} {admissions : List (Admission D)}
      {slices : List (Slice D)} {cursors : List ℕ} {coverage : List (ℕ × CaptureSource D)}
      (held : Held db cohort admissions) (accepted : cohort.lifecycle = .accepted)
      (remaining : Remaining codec db admissions slices)
      (cursors_eq : admissions.mapM (typedReadyPrefix codec db.sources (custody db.ledger)) =
        .ok cursors)
      (coverage_eq : typedCoverageProposals db.sources (admissions.zip cursors) = .ok coverage) :
      Effect codec (db, log) (custodyCommit cohort (admissions.zip cursors) coverage db,
        custodyLog (admissions.zip cursors) coverage log)
  | reserve {db : Db D} {log : Log D} {cohort : Cohort D} {admissions : List (Admission D)}
      {g : PreparedGroup D} {rest : List (Slice D)} {later : List (List (ℕ × Bytes))}
      {artifactId : D} {proof : ReplayProof D}
      (held : Held db cohort admissions) (accepted : cohort.lifecycle = .accepted)
      (unstaged : db.stage = none)
      (remaining : Remaining codec db admissions (g.slices ++ rest))
      (grouped : recordGroups codec (entriesOf (g.slices ++ rest)) = entriesOf g.slices :: later)
      (passed : CustodyPassed db admissions)
      (bound : ∀ s ∈ g.slices, s.admission ∈ admissions)
      (prepared : prepareV2Group codec g.slices g.clock g.initialFrontier = .ok g)
      (initial : g.initialFrontier = db.ledger.v2Frontier)
      (fresh : db.ledger.proofs.get artifactId = none)
      (proof_eq : stageProof codec g db.ledger.nextPublicOrder
        (codec.manifestSha256 artifactId db.ledger.nextPublicOrder g.audioSha256 g.projection) =
          .ok proof) :
      Effect codec (db, log) (reservation cohort
        (stageOf codec g artifactId db.ledger.nextPublicOrder cohort.cursor) proof db, log)
  | materialize {db : Db D} {log : Log D} {stage : Stage D} (staged : db.stage = some stage)
      (absent : db.ledger.directories.get stage.artifactId = none) :
      Effect codec (db, log) ({ db with ledger := { db.ledger with
        directories := db.ledger.directories.put stage.artifactId (stageDirectory stage) } }, log)
  | latch {db : Db D} {log : Log D} :
      Effect codec (db, log)
        ({ db with stage := db.stage.map fun s => { s with failed := true } }, log)
  | commit {db : Db D} {log : Log D} {cohort : Cohort D} {admissions : List (Admission D)}
      {stage : Stage D} {g : PreparedGroup D} {proof : ReplayProof D}
      {coverage : List (ℕ × CaptureSource D)}
      (held : Held db cohort admissions) (staging : cohort.lifecycle = .staging)
      (staged : db.stage = some stage)
      (loaded : Loaded codec db.sources admissions cohort.cursor stage g)
      (proof_eq : stageProof codec g stage.order stage.manifestSha256 = .ok proof)
      (stored : db.ledger.proofs.get stage.artifactId = some proof)
      (fresh : db.ledger.entries.get stage.artifactId = none)
      (coverage_eq : typedCoverageProposals db.sources
        (admissions.map fun a => (a, typedMemberProgress g.facts a)) = .ok coverage) :
      Effect codec (db, log)
        (stageCommit codec cohort stage g proof
            (admissions.map fun a => (a, typedMemberProgress g.facts a)) coverage db,
          stageCommitLog stage g (admissions.map fun a => (a, typedMemberProgress g.facts a))
            coverage log)
  | accept {db : Db D} {log : Log D} {o : Options} {admissions : List (Admission D)}
      {slices : List (Slice D)} (idle : db.cohort = none)
      (admissible : ∀ a ∈ admissions, Admissible db a)
      (distinct : (admissions.map (·.sourceId)).Nodup)
      (unproved : ∀ a ∈ admissions, Unproved db.ledger a)
      (partition : Partition codec db.sources (custody db.ledger) admissions slices)
      (after : ∀ s ∈ slices, AfterFrontier db.ledger.v2Frontier s.startSequence)
      (nonempty : slices ≠ []) (threshold : o.threshold ≤ groupPackets codec slices) :
      Effect codec (db, log) (acceptance o admissions db, acceptanceLog admissions slices log)
  | cover {db : Db D} {log : Log D} {a : Admission D} {proposal : ℕ × CaptureSource D}
      (idle : db.cohort = none) (admissible : Admissible db a)
      (proved : typedFullReadyProofs codec db.sources a (custody db.ledger) = .ok true)
      (proposal_eq : typedCoverageProposal db.sources a = .ok proposal) :
      Effect codec (db, log)
        ({ db with sources := applyTypedCoverage db.sources [proposal] }, log)
  | block {db : Db D} {log : Log D} {a : Admission D} (idle : db.cohort = none)
      (admissible : Admissible db a) :
      Effect codec (db, log) ({ db with sources := db.sources.adjust a.sourceId fun row =>
        { row with source := conflictDisposition row.source } }, log)
  | summaries {db : Db D} {log : Log D} {fresh : List (ℕ × Fingerprint D × ℕ)} :
      Effect codec (db, log) (storeSummaries fresh db, log)
  | wait {db : Db D} {log : Log D} {wait : NormalizedWait D}
      (done : wait.remaining = false → ∀ f ∈ wait.key.admissions, ∃ row,
        db.sources.get f.1.sourceId = some row ∧
          (row.source.lifecycle = .covered ∨ row.source.lifecycle = .retiring)) :
      Effect codec (db, log) (storeWait wait db, log)
  | coalesce {db : Db D} {log : Log D} :
      Effect codec (db, log) ({ db with closures := db.closures.getLast?.toList }, log)
  | clear {db : Db D} {log : Log D} {ledger : Ledger D} (clears : Clears db.ledger ledger) :
      Effect codec (db, log) ({ db with ledger := ledger }, log)
  | failStop {db : Db D} {log : Log D} {message : String}
      (reached : message = noUniqueSlices → ∃ cohort admissions slices,
        Held db cohort admissions ∧ cohort.lifecycle = .accepted ∧
        Remaining codec db admissions slices ∧ recordGroups codec (entriesOf slices) = []) :
      Effect codec (db, log) (db, { log with failStops := message :: log.failStops })
  | retirePage {db : Db D} {log : Log D} {id cursor stop : ℕ} {row : SourceRow D}
      (stored : db.sources.get id = some row) (retiring : row.source.lifecycle = .retiring)
      (free : id ∉ cohortSources db)
      (cursor_eq : row.source.retirementCursor = some cursor)
      (covered : row.source.coverageDigest = some row.source.committedSha256)
      (bound : cursor ≤ stop ∧ stop ≤ row.source.committedCount) :
      Effect codec (db, log) (PublicationMachine.retirePage id cursor stop db,
        retirePageLog row cursor stop log)
  | finish {db : Db D} {log : Log D} {id : ℕ} {row : SourceRow D}
      (stored : db.sources.get id = some row) (retiring : row.source.lifecycle = .retiring)
      (free : id ∉ cohortSources db)
      (cursor_eq : row.source.retirementCursor = some row.source.committedCount) :
      Effect codec (db, log) (finishRetirement id db, log)

/-- One durable change of the database: by publication and raw retirement, by consuming or closing
a permit, by an acknowledgement that retires an artifact, or by a capture. -/
inductive Change (codec : Codec D) : Db D × Log D → Db D × Log D → Prop where
  | program {s s' : Db D × Log D} (effect : Effect codec s s') : Change codec s s'
  | closures {db : Db D} {log : Log D} {closures : List ReadyClosure} :
      Change codec (db, log) ({ db with closures := closures }, log)
  | retire {db : Db D} {log : Log D} {ledger : Ledger D} (retires : Retires db.ledger ledger) :
      Change codec (db, log) ({ db with ledger := ledger }, log)
  | capture {db : Db D} {log : Log D} {id : ℕ} {row : SourceRow D} (fresh : id ∉ log.captured)
      (valid : CapturedRow codec row) :
      Change codec (db, log) ({ db with sources := db.sources.put id row },
        { log with captured := id :: log.captured })

end PublicationEffects
