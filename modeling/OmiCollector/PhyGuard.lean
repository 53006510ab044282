import OmiCollector.PyValue

/-! The guard that removes the LE 2M PHYs for a while, over the adapter's selection and the durable
restoration marker.

A call runs from one awaited operation to the next, and an event is the result of that operation.
A command may have been applied whatever it reports, and a storage operation may have been
committed when it raises, so a cancelled operation is one that raises. A crash may come between
any two events. The Collector process guard lets one call run at a time. -/
namespace PhyGuard

open PyValue

abbrev Phys := List String

def removedPhys : List String := ["LE2MTX", "LE2MRX"]
def requiredPhys : List String := ["LE1MTX", "LE1MRX", "LE2MTX", "LE2MRX"]
def markerVersion : ℕ := 2

def IsPhyToken (token : String) : Prop :=
  token ≠ "" ∧ ∀ c ∈ token.toList, ('A' ≤ c ∧ c ≤ 'Z') ∨ ('0' ≤ c ∧ c ≤ '9')

instance (token : String) : Decidable (IsPhyToken token) :=
  @instDecidableAnd _ _ _ (List.decidableBAll (fun c => ('A' ≤ c ∧ c ≤ 'Z') ∨ ('0' ≤ c ∧ c ≤ '9')) _)

def validatePhys (tokens : Phys) : Except String Unit :=
  Checks.refuse (tokens = [] ∨ (∃ token ∈ tokens, ¬ IsPhyToken token) ∨ ¬ tokens.Nodup)
    "selected PHYs are malformed"

/-- The tokens of a faithful read-back of the selection. -/
def parseSelectedPhys (selected : Phys) : Except String Phys := do
  validatePhys selected
  pure selected

def temporaryPhys (snapshot : Phys) : Except String Phys := do
  validatePhys snapshot
  Checks.refuse (∃ token ∈ requiredPhys, token ∉ snapshot)
    "refusing PHY guard without LE 1M and LE 2M TX/RX selections"
  let temporary := snapshot.filter (· ∉ removedPhys)
  let removed := snapshot.filter (· ∉ temporary)
  Checks.refuse (¬ ((∀ token ∈ removed, token ∈ removedPhys) ∧ ∀ token ∈ removedPhys, token ∈ removed))
    "temporary PHY selection would change more than LE 2M"
  pure temporary

def markerPayload (adapter : String) (snapshot : Phys) : Fields :=
  [("adapter", .str adapter), ("selected_phys", .list (snapshot.map .str)),
    ("version", .int markerVersion)]

def parseDbMarker (adapter : String) (marker : Fields) : Except String Phys := do
  let malformed := "PHY recovery marker is malformed"
  Checks.refuse (¬ HasKeys marker ["adapter", "selected_phys", "version"] [] ∨
    ¬ (marker.lookup "version").any fun version => decide (version.EqualsInt markerVersion)) malformed
  Checks.refuse ((marker.lookup "adapter").bind Value.asText ≠ some adapter) malformed
  match (marker.lookup "selected_phys").bind Value.asList with
  | none => .error malformed
  | some selected =>
    match selected.mapM Value.asText with
    | none => .error malformed
    | some snapshot => do
      validatePhys snapshot
      pure snapshot

/-- What follows the restoration of a snapshot. -/
inductive After where
  | recover
  /-- Recovery at the start of `__aenter__`. -/
  | enter (guard : ℕ)
  | exit
  /-- A failed `__aenter__`, which raises this error in the end. -/
  | cleanup (primary : String)
  deriving DecidableEq, Repr

/-- The operation that the running call waits for. -/
inductive Running where
  | readMarker (after : After)
  | restoreSet (snapshot : Phys) (after : After)
  | restoreVerify (snapshot : Phys) (after : After)
  | deleteMarker (snapshot : Phys) (after : After)
  | readSelected (guard : ℕ)
  | writeMarker (guard : ℕ) (snapshot temporary : Phys)
  | setTemporary (guard : ℕ) (temporary : Phys)
  deriving DecidableEq, Repr

inductive Finished where
  | entered
  | exited
  | recovered
  | raised (message : String)
  deriving DecidableEq, Repr

/-- What can be seen of a run. -/
inductive Act where
  | setPhys (tokens : Phys)
  | readBack (tokens : Phys)
  | snapshotted (tokens : Phys)
  | markerDeleted
  deriving DecidableEq, Repr

/-- The adapter's selection, the marker row, the snapshots of the guard objects, the running call,
the result of the last one, and what was seen, newest first. -/
structure World where
  selected : Phys
  marker : Option Fields
  snapshots : ℕ → Option Phys
  running : Option Running
  finished : Option Finished
  log : List Act

def World.new (selected : Phys) : World := ⟨selected, none, fun _ => none, none, none, []⟩

def World.await (w : World) (running : Running) : World :=
  { w with running := some running, finished := none }

def World.finish (w : World) (result : Finished) : World :=
  { w with running := none, finished := some result }

def World.note (w : World) (act : Act) : World := { w with log := act :: w.log }

/-- An error; from inside `__aenter__` its cleanup restores the snapshot that the guard has. -/
def World.raise (w : World) (after : After) (message : String) : World :=
  match after with
  | .enter guard =>
    match w.snapshots guard with
    | none => w.finish (.raised message)
    | some snapshot => w.await (.restoreSet snapshot (.cleanup message))
  | _ => w.finish (.raised message)

/-- The restoration is complete. -/
def World.restored (w : World) : After → World
  | .recover => w.finish .recovered
  | .enter guard => w.await (.readSelected guard)
  | .exit => w.finish .exited
  | .cleanup primary => w.finish (.raised primary)

/-- The result of a storage operation; one that raises may be committed. -/
inductive StorageResult where
  | ok
  | failed (committed : Bool)
  deriving DecidableEq, Repr

def StorageResult.committed : StorageResult → Bool
  | .ok => true
  | .failed committed => committed

inductive Event where
  | recover (guardHeld : Bool)
  | enter (guard : ℕ) (guardHeld : Bool)
  | exit (guard : ℕ)
  /-- A command to set PHYs ends. -/
  | command (applied ok : Bool)
  | readBack (ok : Bool)
  | storage (result : StorageResult)
  | crash
  deriving DecidableEq, Repr

def busyText : String := "Collector process guard is required for PHY changes"

def World.call (w : World) : Event → World
  | .recover guardHeld =>
    if guardHeld then w.await (.readMarker .recover) else w.finish (.raised busyText)
  | .enter guard guardHeld =>
    if guardHeld then w.await (.readMarker (.enter guard)) else w.finish (.raised busyText)
  | .exit guard =>
    match w.snapshots guard with
    | none => w.finish (.raised "PHY guard has no recoverable snapshot")
    | some snapshot => w.await (.restoreSet snapshot .exit)
  | _ => w

def commandText : String := "bluetoothctl exited with a failure status"
def storageText : String := "state database operation failed"

/-- The adapter after a command to set these tokens. -/
def World.set (w : World) (tokens : Phys) (applied : Bool) : World :=
  { w with selected := if applied then tokens else w.selected }.note (.setPhys tokens)

def emptyText : String := "refusing to set an empty PHY selection"

def World.onCommand (w : World) (applied ok : Bool) : World :=
  match w.running with
  | some (.restoreSet snapshot after) =>
    if snapshot = [] then w.raise after emptyText
    else if ok then (w.set snapshot applied).await (.restoreVerify snapshot after)
    else (w.set snapshot applied).raise after commandText
  | some (.setTemporary guard temporary) =>
    if temporary = [] then w.raise (.enter guard) emptyText
    else if ok then (w.set temporary applied).finish .entered
    else (w.set temporary applied).raise (.enter guard) commandText
  | _ => w

def verificationText : After → String
  | .recover | .enter _ => "PHY recovery restore verification failed"
  | .exit | .cleanup _ => "PHY restore verification failed"

/-- The snapshot of an entering guard, with the selection that it sets. -/
def World.snapshot (w : World) (guard : ℕ) : Except String World := do
  let tokens ← parseSelectedPhys w.selected
  let temporary ← temporaryPhys tokens
  pure (({ w with snapshots := fun g => if g = guard then some tokens else w.snapshots g }.note
    (.snapshotted tokens)).await (.writeMarker guard tokens temporary))

def World.onReadBack (w : World) (ok : Bool) : World :=
  match w.running with
  | some (.restoreVerify snapshot after) =>
    if ok = false then w.raise after commandText
    else
      match parseSelectedPhys w.selected with
      | .error message => w.raise after message
      | .ok tokens =>
        if tokens ≠ snapshot then (w.note (.readBack tokens)).raise after (verificationText after)
        else (w.note (.readBack tokens)).await (.deleteMarker snapshot after)
  | some (.readSelected guard) =>
    if ok = false then w.raise (.enter guard) commandText
    else
      match w.snapshot guard with
      | .error message => w.raise (.enter guard) message
      | .ok w => w
  | _ => w

def World.deleteMarker (w : World) (result : StorageResult) : World :=
  if result.committed then { w with marker := none }.note .markerDeleted else w

def World.onStorage (adapter : String) (w : World) (result : StorageResult) : World :=
  match w.running with
  | some (.readMarker after) =>
    if result ≠ .ok then w.raise after storageText
    else
      match w.marker with
      | none => w.restored after
      | some marker =>
        match parseDbMarker adapter marker with
        | .error message => w.raise after message
        | .ok snapshot => w.await (.restoreSet snapshot after)
  | some (.writeMarker guard snapshot temporary) =>
    if w.marker.isSome then w.raise (.enter guard) "PHY recovery marker already exists"
    else
      let w := if result.committed then { w with marker := some (markerPayload adapter snapshot) } else w
      if result = .ok then w.await (.setTemporary guard temporary)
      else w.raise (.enter guard) storageText
  | some (.deleteMarker snapshot after) =>
    match w.marker with
    | none => w.raise after "PHY recovery marker disappeared before cleanup"
    | some marker =>
      match parseDbMarker adapter marker with
      | .error message => w.raise after message
      | .ok stored =>
        if stored ≠ snapshot then w.raise after "PHY recovery marker changed before cleanup"
        else if result = .ok then (w.deleteMarker result).restored after
        else (w.deleteMarker result).raise after storageText
  | _ => w

/-- One event. A call starts when none is running; a crash loses the call and the guards. -/
def step (adapter : String) (w : World) : Event → World
  | .command applied ok => w.onCommand applied ok
  | .readBack ok => w.onReadBack ok
  | .storage result => w.onStorage adapter result
  | .crash => { w with running := none, finished := none, snapshots := fun _ => none }
  | event => if w.running = none then w.call event else w

def run (adapter : String) (selected : Phys) (events : List Event) : World :=
  events.foldl (step adapter) (World.new selected)

theorem parseSelectedPhys_ok {selected tokens : Phys} (h : parseSelectedPhys selected = .ok tokens) :
    tokens = selected := by
  simp only [parseSelectedPhys, Checks.bind_ok, Checks.pure_ok] at h
  obtain ⟨_, -, hsame⟩ := h
  exact hsame.symm

/-- The marker of a snapshot holds exactly that snapshot. -/
theorem parseDbMarker_payload {adapter : String} {snapshot stored : Phys}
    (h : parseDbMarker adapter (markerPayload adapter snapshot) = .ok stored) :
    stored = snapshot := by
  have htexts : (snapshot.map Value.str).mapM Value.asText = some snapshot := by
    rw [Checks.option_mapM_eq_some, List.forall₂_map_left_iff, List.forall₂_same]
    exact fun _ _ => rfl
  have hselected : (markerPayload adapter snapshot).lookup "selected_phys" =
      some (.list (snapshot.map .str)) := by
    simp [markerPayload, List.lookup_cons]
  simp only [parseDbMarker, Checks.bind_ok, hselected, Option.bind_some, Value.asList, htexts,
    Checks.pure_ok] at h
  obtain ⟨_, -, _, -, _, -, hsame⟩ := h
  exact hsame.symm

/-- What the running call relies on. -/
def AtAwait (original : Phys) (w : World) : Running → Prop
  | .readMarker _ => True
  | .restoreSet snapshot _ => snapshot = original
  | .restoreVerify snapshot _ =>
    snapshot = original ∧ ∃ rest, w.log = .setPhys original :: rest
  | .deleteMarker snapshot _ =>
    snapshot = original ∧ w.selected = original ∧
      ∃ rest, w.log = .readBack original :: .setPhys original :: rest
  | .readSelected _ => w.marker = none
  | .writeMarker _ snapshot _ => w.marker = none ∧ snapshot = original
  | .setTemporary _ _ => w.marker ≠ none

/-- A marker is deleted only right after the original selection was set and read back. -/
def DeletionsVerified (original : Phys) (log : List Act) : Prop :=
  ∀ after before, log = after ++ .markerDeleted :: before →
    ∃ rest, before = .readBack original :: .setPhys original :: rest

/-- What holds whatever the running call does next. -/
structure Core (adapter : String) (original : Phys) (w : World) : Prop where
  recoverable : w.selected = original ∨ w.marker = some (markerPayload adapter original)
  marker : w.marker = none ∨ w.marker = some (markerPayload adapter original)
  snapshots : ∀ guard snapshot, w.snapshots guard = some snapshot → snapshot = original
  deletions : DeletionsVerified original w.log
  originals : ∀ tokens, Act.snapshotted tokens ∈ w.log → tokens = original

structure Inv (adapter : String) (original : Phys) (w : World) : Prop where
  core : Core adapter original w
  running : ∀ running, w.running = some running → AtAwait original w running
  finished : w.finished = some .recovered ∨ w.finished = some .exited →
    w.selected = original ∧ w.marker = none

section Invariant

variable {adapter : String} {original : Phys} {w : World}

theorem Core.selected_of_no_marker (h : Core adapter original w) (hnone : w.marker = none) :
    w.selected = original := by
  rcases h.recoverable with hselected | hmarker
  · exact hselected
  · rw [hnone] at hmarker
    cases hmarker

/-- Waiting for an operation whose facts hold keeps the invariant. -/
theorem Core.await (h : Core adapter original w) {running : Running}
    (hrunning : AtAwait original w running) : Inv adapter original (w.await running) := by
  refine ⟨⟨h.recoverable, h.marker, h.snapshots, h.deletions, h.originals⟩, ?_, ?_⟩
  · rintro r hr
    obtain rfl := Option.some.inj hr
    cases running <;> exact hrunning
  · rintro (hfinished | hfinished) <;> cases hfinished

theorem Core.finish (h : Core adapter original w) {result : Finished}
    (hresult : result = .recovered ∨ result = .exited → w.selected = original ∧ w.marker = none) :
    Inv adapter original (w.finish result) := by
  refine ⟨⟨h.recoverable, h.marker, h.snapshots, h.deletions, h.originals⟩, ?_, ?_⟩
  · intro r hr
    cases hr
  · intro hfinished
    apply hresult
    simpa [World.finish] using hfinished

theorem Core.raise (h : Core adapter original w) (after : After) (message : String) :
    Inv adapter original (w.raise after message) := by
  have hraised : Inv adapter original (w.finish (.raised message)) := h.finish (by simp)
  cases after with
  | enter guard =>
    cases hsnapshot : w.snapshots guard with
    | none =>
      simp only [World.raise, hsnapshot]
      exact hraised
    | some snapshot =>
      simp only [World.raise, hsnapshot]
      have hrestore : AtAwait original w (.restoreSet snapshot (.cleanup message)) :=
        h.snapshots guard snapshot hsnapshot
      exact h.await hrestore
  | _ => exact hraised

theorem Core.restored (h : Core adapter original w) (hnone : w.marker = none) (after : After) :
    Inv adapter original (w.restored after) := by
  have hselected := h.selected_of_no_marker hnone
  cases after with
  | recover => exact h.finish fun _ => ⟨hselected, hnone⟩
  | enter guard => exact h.await hnone
  | exit => exact h.finish fun _ => ⟨hselected, hnone⟩
  | cleanup primary => exact h.finish (by simp)

theorem deletionsVerified_cons {log : List Act} {act : Act} (h : DeletionsVerified original log)
    (hact : act = .markerDeleted → ∃ rest, log = .readBack original :: .setPhys original :: rest) :
    DeletionsVerified original (act :: log) := by
  intro after before hsplit
  cases after with
  | nil =>
    obtain ⟨rfl, rfl⟩ := List.cons.inj hsplit
    exact hact rfl
  | cons _ after =>
    obtain ⟨-, htail⟩ := List.cons.inj hsplit
    exact h after before htail

/-- Noting a command or a read-back keeps the facts. -/
theorem Core.note (h : Core adapter original w) {act : Act} (hdeleted : act ≠ .markerDeleted)
    (hsnapshot : ∀ tokens, act ≠ .snapshotted tokens) : Core adapter original (w.note act) := by
  refine ⟨h.recoverable, h.marker, h.snapshots, ?_, ?_⟩
  · exact deletionsVerified_cons h.deletions fun hact => absurd hact hdeleted
  · intro tokens htokens
    rcases List.mem_cons.mp htokens with heq | htokens
    · exact absurd heq.symm (hsnapshot tokens)
    · exact h.originals tokens htokens

/-- A command to set PHYs keeps the facts if it sets the original or if the marker is there. -/
theorem Core.set (h : Core adapter original w) {tokens : Phys} (applied : Bool)
    (hsafe : tokens = original ∨ w.marker ≠ none) : Core adapter original (w.set tokens applied) := by
  have hcore : Core adapter original
      { w with selected := if applied then tokens else w.selected } := by
    refine ⟨?_, h.marker, h.snapshots, h.deletions, h.originals⟩
    cases applied with
    | false => exact h.recoverable
    | true =>
      rcases hsafe with hsafe | hmarker
      · exact .inl hsafe
      · exact .inr (h.marker.resolve_left hmarker)
  exact hcore.note (by simp) (by simp)

theorem Inv.onCommand (h : Inv adapter original w) (applied ok : Bool) :
    Inv adapter original (w.onCommand applied ok) := by
  unfold World.onCommand
  split
  · rename_i snapshot after hrunning
    have hsnapshot : snapshot = original := h.running _ hrunning
    have hset := h.core.set applied (.inl hsnapshot)
    split
    · exact h.core.raise after emptyText
    · split
      · refine hset.await ⟨hsnapshot, w.log, ?_⟩
        rw [hsnapshot]
        rfl
      · exact hset.raise after commandText
  · rename_i guard temporary hrunning
    have hset := @Core.set adapter original w h.core temporary applied (.inr (h.running _ hrunning))
    split
    · exact h.core.raise (.enter guard) emptyText
    · split
      · exact hset.finish (by simp)
      · exact hset.raise (.enter guard) commandText
  · exact h

theorem Inv.onReadBack (h : Inv adapter original w) (ok : Bool) :
    Inv adapter original (w.onReadBack ok) := by
  unfold World.onReadBack
  split
  · rename_i snapshot after hrunning
    obtain ⟨hsnapshot, rest, hlog⟩ := h.running _ hrunning
    split
    · exact h.core.raise after commandText
    · split
      · exact h.core.raise after _
      · rename_i tokens htokens
        have hsame := parseSelectedPhys_ok htokens
        have hnote : Core adapter original (w.note (.readBack tokens)) :=
          h.core.note (by simp) (by simp)
        split
        · exact hnote.raise after (verificationText after)
        · rename_i heq
          rw [not_not] at heq
          refine hnote.await ⟨hsnapshot, ?_, rest, ?_⟩
          · exact hsame.symm.trans (heq.trans hsnapshot)
          · rw [heq, hsnapshot]
            exact congrArg _ hlog
  · rename_i guard hrunning
    have hnone : w.marker = none := h.running _ hrunning
    split
    · exact h.core.raise (.enter guard) commandText
    · split
      · exact h.core.raise (.enter guard) _
      · rename_i w' hsnapshot
        simp only [World.snapshot, Checks.bind_ok, Checks.pure_ok] at hsnapshot
        obtain ⟨tokens, htokens, temporary, -, rfl⟩ := hsnapshot
        -- Without a marker the selection is the original one, so the snapshot is.
        have horiginal : tokens = original :=
          (parseSelectedPhys_ok htokens).trans (h.core.selected_of_no_marker hnone)
        refine Core.await ?_ ⟨hnone, horiginal⟩
        refine ⟨h.core.recoverable, h.core.marker, ?_, ?_, ?_⟩
        · intro g snapshot hg
          simp only [World.note] at hg
          split at hg
          · exact (Option.some.inj hg).symm.trans horiginal
          · exact h.core.snapshots g snapshot hg
        · exact deletionsVerified_cons h.core.deletions (by simp)
        · intro tokens' htokens'
          rcases List.mem_cons.mp htokens' with heq | htokens'
          · obtain rfl := Act.snapshotted.inj heq
            exact horiginal
          · exact h.core.originals tokens' htokens'
  · exact h

/-- Deleting the marker after the read-back of the original selection. -/
theorem Core.deleteMarker (h : Core adapter original w) (hselected : w.selected = original)
    {rest : List Act} (hlog : w.log = .readBack original :: .setPhys original :: rest)
    (result : StorageResult) : Core adapter original (w.deleteMarker result) := by
  unfold World.deleteMarker
  split
  · refine ⟨.inl hselected, .inl rfl, h.snapshots, ?_, ?_⟩
    · exact deletionsVerified_cons h.deletions fun _ => ⟨rest, hlog⟩
    · intro tokens htokens
      rcases List.mem_cons.mp htokens with heq | htokens
      · cases heq
      · exact h.originals tokens htokens
  · exact h

theorem Inv.onStorage (h : Inv adapter original w) (result : StorageResult) :
    Inv adapter original (w.onStorage adapter result) := by
  unfold World.onStorage
  split
  · rename_i after hrunning
    split
    · exact h.core.raise after storageText
    · split
      · rename_i hnone
        exact h.core.restored hnone after
      · rename_i marker hmarker
        split
        · exact h.core.raise after _
        · rename_i snapshot hparse
          have hpayload : marker = markerPayload adapter original :=
            Option.some.inj (hmarker.symm.trans (h.core.marker.resolve_left (by simp [hmarker])))
          exact h.core.await (parseDbMarker_payload (hpayload ▸ hparse))
  · rename_i guard snapshot temporary hrunning
    obtain ⟨hnone, hsnapshot⟩ := h.running _ hrunning
    split
    · exact h.core.raise (.enter guard) _
    · have hcore : Core adapter original (if result.committed then
          { w with marker := some (markerPayload adapter snapshot) } else w) := by
        split
        · rw [hsnapshot]
          exact ⟨.inr rfl, .inr rfl, h.core.snapshots, h.core.deletions, h.core.originals⟩
        · exact h.core
      dsimp only
      split
      · rename_i hok
        refine hcore.await ?_
        rw [hok]
        exact Option.some_ne_none _
      · exact hcore.raise (.enter guard) storageText
  · rename_i snapshot after hrunning
    obtain ⟨hsnapshot, hselected, rest, hlog⟩ := h.running _ hrunning
    have hcore := h.core.deleteMarker hselected hlog result
    split
    · exact h.core.raise after _
    · split
      · exact h.core.raise after _
      · split
        · exact h.core.raise after _
        · split
          · rename_i hok
            refine hcore.restored ?_ after
            rw [hok]
            rfl
          · exact hcore.raise after storageText
  · exact h

theorem Inv.call (h : Inv adapter original w) (event : Event) :
    Inv adapter original (w.call event) := by
  cases event with
  | recover guardHeld =>
    cases guardHeld with
    | false => exact h.core.finish (by simp)
    | true => exact h.core.await trivial
  | enter guard guardHeld =>
    cases guardHeld with
    | false => exact h.core.finish (by simp)
    | true => exact h.core.await trivial
  | exit guard =>
    cases hsnapshot : w.snapshots guard with
    | none =>
      simp only [World.call, hsnapshot]
      exact h.core.finish (by simp)
    | some snapshot =>
      simp only [World.call, hsnapshot]
      have hrestore : AtAwait original w (.restoreSet snapshot .exit) :=
        h.core.snapshots guard snapshot hsnapshot
      exact h.core.await hrestore
  | _ => exact h

theorem Inv.step (h : Inv adapter original w) (event : Event) :
    Inv adapter original (step adapter w event) := by
  have hcall : Inv adapter original (if w.running = none then w.call event else w) := by
    split
    · exact h.call event
    · exact h
  cases event with
  | command applied ok => exact h.onCommand applied ok
  | readBack ok => exact h.onReadBack ok
  | storage result => exact h.onStorage result
  | crash =>
    refine ⟨⟨h.core.recoverable, h.core.marker, ?_, h.core.deletions, h.core.originals⟩, ?_, ?_⟩
    · intro guard snapshot hsnapshot
      cases hsnapshot
    · intro running hrunning
      cases hrunning
    · rintro (hfinished | hfinished) <;> cases hfinished
  | _ => exact hcall

theorem inv_new (adapter : String) (original : Phys) : Inv adapter original (World.new original) := by
  refine ⟨⟨.inl rfl, .inl rfl, by simp [World.new], ?_, by simp [World.new]⟩, by simp [World.new],
    by simp [World.new]⟩
  intro after before h
  exact absurd h (by simp [World.new])

theorem inv_run (adapter : String) (original : Phys) (events : List Event) :
    Inv adapter original (run adapter original events) := by
  unfold run
  generalize hw : World.new original = w
  have hinv : Inv adapter original w := hw ▸ inv_new adapter original
  clear hw
  induction events generalizing w with
  | nil => exact hinv
  | cons event events ih => exact ih (step adapter w event) (hinv.step event)

end Invariant

/-- In every run the original selection is in place or in the marker. A marker is deleted only
right after the original selection was set and read back, only the original is ever snapshotted,
and a completed recovery or exit leaves it in place without a marker. -/
theorem selection_recoverable (adapter : String) (original : Phys) (events : List Event) :
    ((run adapter original events).selected = original ∨
      (run adapter original events).marker = some (markerPayload adapter original)) ∧
    DeletionsVerified original (run adapter original events).log ∧
    (∀ tokens, Act.snapshotted tokens ∈ (run adapter original events).log → tokens = original) ∧
    ((run adapter original events).finished = some .recovered ∨
        (run adapter original events).finished = some .exited →
      (run adapter original events).selected = original ∧
        (run adapter original events).marker = none) := by
  have h := inv_run adapter original events
  exact ⟨h.core.recoverable, h.core.deletions, h.core.originals, h.finished⟩

def originalPhys : Phys := ["BR1M1SLOT", "LE1MTX", "LE1MRX", "LE2MTX", "LE2MRX"]

/-- A crash in a session, and the recovery after it. -/
def crashedSession : List Event :=
  [.enter 0 true, .storage .ok, .readBack true, .storage .ok, .command true true, .crash,
    .recover true, .storage .ok, .command true true, .readBack true, .storage .ok]

example : (run "hci0" originalPhys (crashedSession.take 5)).selected =
    ["BR1M1SLOT", "LE1MTX", "LE1MRX"] := by
  decide +kernel

theorem selection_recoverable_crash :
    (run "hci0" originalPhys crashedSession).selected = originalPhys ∧
      (run "hci0" originalPhys crashedSession).marker = none :=
  (selection_recoverable "hci0" originalPhys crashedSession).2.2.2 (.inl (by decide +kernel))

end PhyGuard
