import OmiCollector.PublicationLedger
import OmiCollector.RefusalLogic
import OmiCollector.TransitionRuns

/-! Retirement of acknowledged artifacts: `retire_acknowledged_ready` with the checkpoint parser,
the two validations, the ledger transaction and the removal of directories.

A process may stop before any write to the database or to a directory. A stopped process is
replaced by a fresh one, which has not yet finished the removals of its predecessor. -/
namespace AckRetirement

open KeyedTable PublicationLedger RefusalLogic

/-- A decoded JSON value. A string of 64 lowercase hexadecimal characters is a digest. -/
inductive Json (D : Type) where
  | digest (d : D)
  | text (s : String)
  | array (items : List (Json D))
  | object (fields : List (String × Json D))
  | scalar

inductive Checkpoint (D : Type) where
  | missing
  | unreadable
  | value (json : Json D)

inductive Stop where
  | crashed
  | raised (message : String)
  deriving DecidableEq, Repr

/-- What one call of `retire_acknowledged_ready` meets: the checkpoint at its three reads, its file
identity, the answers of `should_defer`, the order of directory items, and the write before which
the process stops. -/
structure Call (D : Type) where
  checkpoint : Checkpoint D
  reread : Checkpoint D
  recheck : Checkpoint D
  revisionChanged : Bool
  defers : List Bool
  manifestFirst : Bool
  steps : Option ℕ

structure World (D : Type) where
  ledger : Ledger D
  retiredRecoveryDone : Bool
  defers : List Bool
  manifestFirst : Bool
  steps : Option ℕ

variable {D : Type} [DecidableEq D]

abbrev AckM (D : Type) (α : Type) := Refusable (World D) Stop α

def jsonDigest (value : Option (Json D)) (name : String) : Except String D :=
  match value with
  | some (.digest d) => .ok d
  | _ => .error (name ++ " must be lowercase SHA-256 hex")

/-- The entry loop of `parse_v2_acknowledged`. -/
def parseEntries (seen : List D) : List (Json D) → Except String (List (D × D))
  | [] => .ok []
  | .object fields :: rest =>
    if (∀ f ∈ fields, f.1 = "id" ∨ f.1 = "audio_sha256") ∧ (fields.lookup "id").isSome ∧
        (fields.lookup "audio_sha256").isSome then do
      let artifactId ← jsonDigest (fields.lookup "id") "id"
      let audioDigest ← jsonDigest (fields.lookup "audio_sha256") "audio_sha256"
      if artifactId ∈ seen then .error "duplicate acknowledgement id"
      else
        let parsed ← parseEntries (artifactId :: seen) rest
        return (artifactId, audioDigest) :: parsed
    else .error "acknowledgement entries must contain exactly id and audio_sha256"
  | _ :: _ => .error "acknowledgement entries must contain exactly id and audio_sha256"

def parseV2Acknowledged : Json D → Except String (List (D × D))
  | .object fields =>
    match fields.lookup "acknowledged" with
    | some (.array items) => parseEntries [] items
    | _ => .error "acknowledged must be a list"
  | _ => .error "checkpoint must be a mapping"

def acknowledgedPublicAudioV2 : Checkpoint D → Except String (List (D × D))
  | .missing => .ok []
  | .unreadable => .error "ready metadata is invalid"
  | .value json => (parseV2Acknowledged json).mapError fun _ =>
      "public audio v2 checkpoint is invalid"

/-- Whether any listed artifact is still ready, or the first pair that is not acceptable. -/
def requireV2AcknowledgementMetadata (l : Ledger D) (seen : List D) :
    List (D × D) → Except String Bool
  | [] => .ok false
  | (artifactId, audioSha256) :: rest =>
    if artifactId ∈ seen then
      .error "public audio v2 acknowledgement has a duplicate artifact"
    else match l.entries.get artifactId with
      | none => .error "public audio v2 acknowledgement is not a published artifact"
      | some entry =>
        if entry.audioSha256 ≠ audioSha256 then
          .error "public audio v2 acknowledgement is not a published artifact"
        else do
          let needsRetirement ← requireV2AcknowledgementMetadata l (artifactId :: seen) rest
          return decide (entry.state = .ready) || needsRetirement

/-- A directory holds exactly the two files whose digests are in its entry. -/
def readV2ReadySource (d : Directory D) (e : Entry D) : Except String Unit :=
  if d.foreign ∨ d.audio = none ∨ d.manifest = none then
    .error "v2 ready artifact inventory is invalid"
  else if d.audio ≠ some e.audioSha256 ∨ d.manifest ≠ some e.manifestSha256 then
    .error "v2 ready artifact digest conflicts with its ledger"
  else .ok ()

def v2ActiveProof (p : ReplayProof D) (e : Entry D) : Except String Unit :=
  if p.hashes.length = e.facts.recordCount ∧ p.recordsSha256 = e.recordsSha256 ∧
      p.manifestSha256 = e.manifestSha256 ∧ p.publicOrder = e.order ∧
      p.audioSha256 = e.audioSha256 ∧ p.packetCount = e.packetCount then .ok ()
  else .error "active v2 replay proof is corrupt"

/-- Authenticate visible directories and active proofs against the ready entries. -/
def v2ReadyCustody (l : Ledger D) (pending : Option D) : Except String Unit := do
  let visible := l.directories.keys.filter fun id => some id ≠ pending
  if (∀ id ∈ visible, id ∈ l.readyIds) ∧ (∀ id ∈ l.readyIds, id ∈ visible) then
    (l.entries.rows.filter fun r => r.2.state = .ready).forM fun r =>
      match l.directories.get r.1 with
      | none => .error "v2 ready files do not match the active publication ledger"
      | some d => readV2ReadySource d r.2
    if (∀ id ∈ l.activeProofIds, id ∈ l.readyIds) ∧ (∀ id ∈ l.readyIds, id ∈ l.activeProofIds) then
      (l.entries.rows.filter fun r => r.2.state = .ready).forM fun r =>
        match l.proofs.get r.1 with
        | none => .error "active v2 replay proofs do not match the ledger"
        | some p => v2ActiveProof p r.2
    else .error "active v2 replay proofs do not match the ledger"
  else .error "v2 ready files do not match the active publication ledger"

def fromExcept {α : Type} : Except String α → AckM D α
  | .ok a => pure a
  | .error e => throw (.raised e)

/-- One durable write; the process may stop right before it. -/
def write (f : Ledger D → Ledger D) : AckM D Unit := do
  let w ← get
  match w.steps with
  | none => set { w with ledger := f w.ledger }
  | some 0 => throw .crashed
  | some (n + 1) => set { w with ledger := f w.ledger, steps := some n }

def shouldDefer : AckM D Bool := do
  let w ← get
  match w.defers with
  | [] => return false
  | answer :: rest => do
    set { w with defers := rest }
    return answer

inductive Item where
  | audio
  | manifest
  deriving DecidableEq, Repr

def Item.present (d : Directory D) : Item → Bool
  | .audio => d.audio.isSome
  | .manifest => d.manifest.isSome

def Item.remove (d : Directory D) : Item → Directory D
  | .audio => { d with audio := none }
  | .manifest => { d with manifest := none }

def unlink (id : D) (d : Directory D) (item : Item) : AckM D Unit :=
  if item.present d then
    write fun l => { l with directories := l.directories.adjust id (item.remove ·) }
  else pure ()

def removeV2Artifact (id : D) : AckM D Unit := do
  let w ← get
  match w.ledger.directories.get id with
  | none => pure ()
  | some d => do
    refuseIf (d.foreign = true) (Stop.raised "retired public audio v2 artifact inventory is invalid")
    unlink id d (if w.manifestFirst then .manifest else .audio)
    unlink id d (if w.manifestFirst then .audio else .manifest)
    write fun l => { l with directories := l.directories.delete id }

/-- The removal loop of `resume_retired_public_audio_v2` over a ledger snapshot. -/
def removeRetired : List (D × Entry D) → AckM D Unit
  | [] => pure ()
  | (id, entry) :: rest =>
    if entry.state = .retired then do
      removeV2Artifact id
      removeRetired rest
    else removeRetired rest

def resumeRetiredPublicAudioV2 : AckM D Unit := do
  removeRetired (← get).ledger.entries.rows

def Entry.retire (e : Entry D) : Entry D := { e with state := .retired }

/-- The one transaction that turns a ready entry into a retired one. -/
def recordV2Retirement (id : D) (entry : Entry D) : AckM D Unit := do
  let w ← get
  refuseIf (w.ledger.entries.get id ≠ some entry)
    (Stop.raised "public audio v2 custody changed before retirement")
  refuseIf ((w.ledger.proofs.get id).map (·.lifecycle) ≠ some .active)
    (Stop.raised "public audio v2 ACK found no active replay proof")
  write fun l => { l with
    entries := l.entries.put id (Entry.retire entry)
    proofs := l.proofs.delete id }

/-- The retirement loop over the acknowledged pairs and the custody snapshot. -/
def retireEach (entries : Table D (Entry D)) : List (D × D) → AckM D (List D)
  | [] => return []
  | (id, _) :: rest =>
    match entries.get id with
    | none => throw (.raised "public audio v2 acknowledgement is not a published artifact")
    | some entry =>
      if entry.state = .retired then retireEach entries rest
      else do
        recordV2Retirement id entry
        removeV2Artifact id
        let deferred ← shouldDefer
        if deferred then return [id]
        else
          let retired ← retireEach entries rest
          return id :: retired

def requireV2Acknowledgements (l : Ledger D) (acknowledged : List (D × D)) : Except String Unit := do
  let _ ← requireV2AcknowledgementMetadata l [] acknowledged
  acknowledged.forM fun pair =>
    match l.entries.get pair.1 with
    | none => .error "public audio v2 acknowledgement is not a published artifact"
    | some entry =>
      if entry.state = .ready ∧ pair.1 ∉ l.activeProofIds then
        .error "public audio v2 acknowledgement has no active replay proof"
      else .ok ()

def preflightV2AckRetirement (acknowledged : List (D × D)) :
    AckM D (Option (Table D (Entry D))) := do
  if acknowledged = [] then return none
  else
    let needsRetirement ← fromExcept
      (requireV2AcknowledgementMetadata (← get).ledger [] acknowledged)
    if needsRetirement = false then return none
    else
      let deferred ← shouldDefer
      if deferred then return none
      else
        resumeRetiredPublicAudioV2
        let interrupted ← shouldDefer
        if interrupted then return none
        else
          let l := (← get).ledger
          fromExcept (v2ReadyCustody l none)
          fromExcept (requireV2Acknowledgements l acknowledged)
          return some l.entries

def retireAcknowledgedPublicAudioV2 (c : Call D) : AckM D (List D) := do
  let acknowledged ← fromExcept (acknowledgedPublicAudioV2 c.reread)
  let entries ← preflightV2AckRetirement acknowledged
  match entries with
  | none => return []
  | some entries => do
    refuseIf (c.revisionChanged = true)
      (Stop.raised "public audio v2 acknowledgement changed before retirement")
    let again ← fromExcept (acknowledgedPublicAudioV2 c.recheck)
    refuseIf (again ≠ acknowledged)
      (Stop.raised "public audio v2 acknowledgement changed before retirement")
    let deferred ← shouldDefer
    if deferred then return []
    else retireEach entries acknowledged

/-- `try: ... except BaseException: recovery_done = False; raise`. -/
def forgettingRecovery {α : Type} (x : AckM D α) : AckM D α :=
  tryCatch x fun e => do
    modify fun w => { w with retiredRecoveryDone := false }
    throw e

def ensureRecovery : AckM D Unit := do
  if (← get).retiredRecoveryDone then pure ()
  else
    resumeRetiredPublicAudioV2
    modify fun w => { w with retiredRecoveryDone := true }

def retireAcknowledgedReady (c : Call D) : AckM D (List D) := do
  let deferred ← shouldDefer
  if deferred then return []
  else
    ensureRecovery
    let acknowledged ← fromExcept (acknowledgedPublicAudioV2 c.checkpoint)
    let needsRetirement ← fromExcept
      (requireV2AcknowledgementMetadata (← get).ledger [] acknowledged)
    if needsRetirement = false then return []
    else
      let late ← shouldDefer
      if late then return []
      else forgettingRecovery (retireAcknowledgedPublicAudioV2 c)

/-- What lasts between calls: the ledger, and the recovery flag while the process lives. -/
structure Process (D : Type) where
  ledger : Ledger D
  retiredRecoveryDone : Bool

def Process.world (p : Process D) (c : Call D) : World D :=
  ⟨p.ledger, p.retiredRecoveryDone, c.defers, c.manifestFirst, c.steps⟩

def callStep (p : Process D) (c : Call D) : Process D :=
  match exec (retireAcknowledgedReady c) (p.world c) with
  | (.error .crashed, w) => ⟨w.ledger, false⟩
  | (_, w) => ⟨w.ledger, w.retiredRecoveryDone⟩

end AckRetirement
