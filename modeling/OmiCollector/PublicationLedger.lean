import Mathlib.Data.Rat.Defs
import OmiCollector.CaptureModel
import OmiCollector.KeyedTable
import OmiCollector.SpanCover

/-! The publication ledger: v2 entries with their replay proofs and directories, the retired
entries of the older format, the v2 frontier and the order counter.

A SHA-256 text is a value of `D`. Artifact identities are such texts, since the source derives
them by hashing. -/
namespace PublicationLedger

open ByteCodec CaptureModel KeyedTable SpanCover

inductive EntryState where
  | ready
  | retired
  deriving DecidableEq, Repr

/-- The physical facts of one artifact: its span and the gaps inside it. -/
structure BundleFacts (D : Type) where
  startSequence : ℕ
  nextSequence : ℕ
  recordCount : ℕ
  rawSha256 : D
  gaps : List (ℕ × ℕ)
  deriving DecidableEq

def runsFrom (next : ℕ) : ℕ → List (ℕ × ℕ) → List Span
  | cursor, [] => [⟨cursor, next⟩]
  | cursor, (start, stop) :: gaps => ⟨cursor, start⟩ :: runsFrom next stop gaps

def physicalRuns {D : Type} (facts : BundleFacts D) : List Span :=
  runsFrom facts.nextSequence facts.startSequence facts.gaps

/-- One source slice of an artifact: start sequence, next sequence and raw digest. -/
abbrev SourceLineage (D : Type) := ℕ × ℕ × D

/-- A v2 entry of the ready publication ledger. -/
structure Entry (D : Type) where
  recordsSha256 : D
  state : EntryState
  startSequence : ℕ
  nextSequence : ℕ
  draftRawSha256 : D
  gaps : List (ℕ × ℕ)
  sources : List (SourceLineage D)
  order : ℕ
  audioSha256 : D
  manifestSha256 : D
  packetCount : ℕ
  deriving DecidableEq

/-- An entry of the older format; the ledger accepts such entries only when retired. -/
structure LegacyEntry (D : Type) where
  startSequence : ℕ
  nextSequence : ℕ
  draftRawSha256 : D
  gaps : List (ℕ × ℕ)
  sources : List (SourceLineage D)
  deriving DecidableEq

def gapRecords (gaps : List (ℕ × ℕ)) : ℕ := (gaps.map fun gap => gap.2 - gap.1).sum

def Entry.facts {D : Type} (e : Entry D) : BundleFacts D :=
  ⟨e.startSequence, e.nextSequence, e.nextSequence - e.startSequence - gapRecords e.gaps,
    e.draftRawSha256, e.gaps⟩

def LegacyEntry.facts {D : Type} (e : LegacyEntry D) : BundleFacts D :=
  ⟨e.startSequence, e.nextSequence, e.nextSequence - e.startSequence - gapRecords e.gaps,
    e.draftRawSha256, e.gaps⟩

inductive NormalizationMode where
  | raw
  | mapped
  deriving DecidableEq, Repr

/-- Records of one timestamp offset. Offsets are differences of whole seconds. -/
structure NormalizationRun where
  firstRecordIndex : ℕ
  nextRecordIndex : ℕ
  offsetSeconds : ℤ
  mode : NormalizationMode
  boundaryBefore : ℕ
  deriving DecidableEq, Repr

def normalizeRecord (record : Bytes) (run : NormalizationRun) : Except String Bytes :=
  if record.length ≠ audioRecordSize then .error "record must be exactly 444 bytes"
  else match run.mode with
    | .raw => .ok record
    | .mapped =>
      let normalized := (fromBytesBig (record.take 4) : ℤ) + run.offsetSeconds
      if 0 ≤ normalized ∧ normalized ≤ maxProtocolUint32 then
        .ok (toBytesBig 4 normalized.toNat ++ record.drop 4)
      else .error "normalized timestamp is outside uint32"

/-- A run maps different records to different records. -/
theorem normalizeRecord_injective {run : NormalizationRun} {record record' normalized : Bytes}
    (h : normalizeRecord record run = .ok normalized)
    (h' : normalizeRecord record' run = .ok normalized) : record = record' := by
  unfold normalizeRecord at h h'
  split at h
  · cases h
  · rename_i hlen
    split at h'
    · cases h'
    · rename_i hlen'
      rw [not_not] at hlen hlen'
      cases hmode : run.mode with
      | raw =>
        simp only [hmode, Except.ok.injEq] at h h'
        rw [h, h']
      | mapped =>
        simp only [hmode] at h h'
        split at h
        · rename_i hbound
          split at h'
          · rename_i hbound'
            have heq := (Except.ok.inj h).trans (Except.ok.inj h').symm
            obtain ⟨hstamp, hpayload⟩ := List.append_inj heq (by simp)
            have hsame : fromBytesBig (record.take 4) = fromBytesBig (record'.take 4) := by
              have hpow : maxProtocolUint32 < 256 ^ 4 := by decide
              have hback := congrArg fromBytesBig hstamp
              rw [fromBytesBig_toBytesBig (by omega), fromBytesBig_toBytesBig (by omega)] at hback
              omega
            have htake : ∀ b : Bytes, b.length = audioRecordSize →
                toBytesBig 4 (fromBytesBig (b.take 4)) = b.take 4 := by
              intro b hb
              have hfour : (b.take 4).length = 4 := by simp [hb, audioRecordSize]
              have := toBytesBig_fromBytesBig (b.take 4)
              rwa [hfour] at this
            rw [← List.take_append_drop 4 record, ← List.take_append_drop 4 record', hpayload,
              ← htake record hlen, ← htake record' hlen', hsame]
          · cases h'
        · cases h

inductive ProofLifecycle where
  | staging
  | active
  deriving DecidableEq, Repr

/-- A `ready_replay_proof` row with the record hashes of its pages. -/
structure ReplayProof (D : Type) where
  lifecycle : ProofLifecycle
  recordsSha256 : D
  manifestSha256 : D
  normalizationRuns : List NormalizationRun
  publicOrder : ℕ
  audioSha256 : D
  packetCount : ℕ
  hashes : List D
  deriving DecidableEq

inductive Quality where
  | known
  | approximate
  | unknown
  deriving DecidableEq, Repr

structure FrozenPublicTime where
  quality : Quality
  seconds : ℕ
  utcUncertaintySeconds : Option ℚ
  causalMembership : String
  comparableToPrevious : Bool
  deriving DecidableEq

structure V2Frontier where
  sequence : ℕ
  time : FrozenPublicTime
  pendingOverflowSize : Option ℕ
  deriving DecidableEq

/-- A visible artifact directory: the digests of its files, and whether it holds anything else. -/
structure Directory (D : Type) where
  audio : Option D
  manifest : Option D
  foreign : Bool
  deriving DecidableEq

structure Ledger (D : Type) where
  legacy : List (D × LegacyEntry D)
  entries : Table D (Entry D)
  proofs : Table D (ReplayProof D)
  readyFrontier : ℕ
  v2Frontier : Option V2Frontier
  nextPublicOrder : ℕ
  directories : Table D (Directory D)
  deriving DecidableEq

/-- No v2 artifact was ever published. -/
def Ledger.empty {D : Type} (legacy : List (D × LegacyEntry D)) : Ledger D :=
  ⟨legacy, Table.empty, Table.empty, 0, none, 0, Table.empty⟩

variable {D : Type} [DecidableEq D]

def Ledger.IsReady (l : Ledger D) (id : D) : Prop := ∃ e, l.entries.get id = some e ∧ e.state = .ready

def Ledger.IsRetired (l : Ledger D) (id : D) : Prop :=
  ∃ e, l.entries.get id = some e ∧ e.state = .retired

def Ledger.HasActiveProof (l : Ledger D) (id : D) : Prop :=
  ∃ p, l.proofs.get id = some p ∧ p.lifecycle = .active

def Ledger.readyIds (l : Ledger D) : List D :=
  (l.entries.rows.filter fun r => r.2.state = .ready).map Prod.fst

def Ledger.activeProofIds (l : Ledger D) : List D :=
  (l.proofs.rows.filter fun r => r.2.lifecycle = .active).map Prod.fst

theorem mem_readyIds {l : Ledger D} {id : D} : id ∈ l.readyIds ↔ l.IsReady id := by
  simp [Ledger.readyIds, Ledger.IsReady, Table.get_eq_some]

theorem mem_activeProofIds {l : Ledger D} {id : D} :
    id ∈ l.activeProofIds ↔ l.HasActiveProof id := by
  simp [Ledger.activeProofIds, Ledger.HasActiveProof, Table.get_eq_some]

end PublicationLedger
