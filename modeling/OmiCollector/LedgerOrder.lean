import OmiCollector.PublicationEffects

/-! The order of the public ledger is an invariant of every durable step.

A stage is reserved behind the frontier with the next order, nothing else may be reserved before
it is committed, and its commit moves the frontier to its last record. -/
namespace LedgerOrder

open AudioMachine (AudioPhase CohortPhase)
open KeyedTable SpanCover SpanWalk PublicationLedger TypedSlices SlicePartition
open PublicationGroups PublicationStage PublicationStore PublicationMachine PublicationEffects

variable {D : Type}

/-- A reserved group lies behind the frontier it was reserved at. -/
structure StageOrder (l : Ledger D) (stage : Stage D) : Prop where
  runs : RunsWithin stage.descriptor.facts.startSequence stage.descriptor.facts.nextSequence
    (physicalRuns stage.descriptor.facts)
  nonempty : stage.descriptor.facts.startSequence < stage.descriptor.facts.nextSequence
  last : stage.descriptor.finalFrontier.sequence + 1 = stage.descriptor.facts.nextSequence
  initial : stage.descriptor.initialFrontier = l.v2Frontier
  after : AfterFrontier l.v2Frontier stage.descriptor.facts.startSequence
  order : stage.order + 1 = l.nextPublicOrder
  ranges : ∀ r ∈ stage.descriptor.sources, ∀ x, r.sequenceStart ≤ x → x < r.nextSequence →
    Covers (physicalRuns stage.descriptor.facts) x

/-- The runs of a group cover the sequences of its slices. -/
theorem covers_groupFacts {codec : Codec D} {slices : List (Slice D)} (h : Chain slices)
    (hne : slices ≠ []) (x : ℕ) :
    Covers (physicalRuns (groupFacts codec slices)) x ↔ SeqIn slices x := by
  rw [← mem_runSequences, (physicalRuns_groupFacts h hne).2, List.mem_map]
  constructor
  · intro hx
    obtain ⟨entry, hentry, rfl⟩ := hx
    obtain ⟨s, hs, hsx, -⟩ := mem_entriesOf.mp hentry
    exact ⟨s, hs, hsx⟩
  · intro hx
    obtain ⟨s, hs, hsx⟩ := hx
    obtain ⟨raw, hraw, -⟩ := rawAt_of_contains hsx
    exact ⟨(x, raw), mem_entriesOf.mpr ⟨s, hs, hsx, hraw⟩, rfl⟩

/-- A group reserved from the first slices of a partition behind the frontier. -/
theorem stageOrder_reserve {codec : Codec D} {l : Ledger D} {g : PreparedGroup D}
    {artifactId : D} {cohortCursor : ℕ} (hchain : Chain g.slices)
    (hprepared : prepareV2Group codec g.slices g.clock g.initialFrontier = .ok g)
    (hinitial : g.initialFrontier = l.v2Frontier)
    (hafter : ∀ s ∈ g.slices, AfterFrontier l.v2Frontier s.startSequence) {l' : Ledger D}
    (hfrontier : l'.v2Frontier = l.v2Frontier)
    (hnext : l'.nextPublicOrder = l.nextPublicOrder + 1) :
    StageOrder l' (stageOf codec g artifactId l.nextPublicOrder cohortCursor) := by
  obtain ⟨hne, -, hfacts, -, -, hlast⟩ := prepareV2Group_ok hprepared
  rw [getLast_entriesOf hchain hne] at hlast
  have hgetLast := hchain.nonempty _ (List.getLast_mem hne)
  have hhead := hchain.nonempty _ (List.head_mem hne)
  have hstart : g.facts.startSequence = (g.slices.head hne).startSequence := by
    rw [hfacts]
    simp [groupFacts, List.head?_eq_some_head hne]
  have hstop : g.facts.nextSequence = (g.slices.getLast hne).nextSequence := by
    rw [hfacts]
    simp [groupFacts, List.getLast?_eq_some_getLast hne]
  have hruns : RunsWithin g.facts.startSequence g.facts.nextSequence (physicalRuns g.facts) := by
    rw [hfacts]
    exact (physicalRuns_groupFacts hchain hne).1
  have hnonempty : g.facts.startSequence < g.facts.nextSequence := by
    obtain ⟨r, hr⟩ := List.exists_mem_of_ne_nil _
      (runsFrom_ne_nil g.facts.nextSequence g.facts.startSequence g.facts.gaps)
    have := hruns.inside r hr
    omega
  constructor
  · exact hruns
  · exact hnonempty
  · change g.finalFrontier.sequence + 1 = g.facts.nextSequence
    have := Option.some.inj hlast
    omega
  · rw [hfrontier]
    exact hinitial
  · change AfterFrontier l'.v2Frontier g.facts.startSequence
    rw [hfrontier, hstart]
    exact hafter _ (List.head_mem hne)
  · exact hnext.symm
  · intro r hr
    obtain ⟨s, hs, rfl⟩ := List.mem_map.mp hr
    intro x h1 h2
    change Covers (physicalRuns g.facts) x
    rw [hfacts, covers_groupFacts hchain hne]
    exact ⟨s, hs, h1, h2⟩

variable [DecidableEq D]

/-- The entry stored under an identity. -/
def Stored (l : Ledger D) (id : D) (e : Entry D) : Prop := l.entries.get id = some e

/-- Orders that have been committed: all reserved ones, less that of the outstanding stage. -/
def committedOrders (db : Db D) : ℕ :=
  match db.stage with
  | none => db.ledger.nextPublicOrder
  | some stage => stage.order

/-- What holds of the ledger entries alone, for a number of committed orders. -/
structure EntryOrder (l : Ledger D) (orders : ℕ) : Prop where
  runs : ∀ id e, Stored l id e → e.startSequence < e.nextSequence ∧
    RunsWithin e.startSequence e.nextSequence (physicalRuns e.facts)
  ordered : ∀ id e id' e', Stored l id e → Stored l id' e' → e.order < e'.order →
    e.nextSequence ≤ e'.startSequence
  unique : ∀ id e id' e', Stored l id e → Stored l id' e' → e.order = e'.order → id = id'
  consecutive : ∀ n, (∃ id e, Stored l id e ∧ e.order = n) ↔ n < orders
  frontier : ∀ f, l.v2Frontier = some f →
    ∃ id e, Stored l id e ∧ e.order + 1 = orders ∧ f.sequence + 1 = e.nextSequence
  start : l.v2Frontier = none → orders = 0
  lineage : ∀ id e, Stored l id e → ∀ t ∈ e.sources, ∀ x, t.1 ≤ x → x < t.2.1 →
    Covers (physicalRuns e.facts) x

structure LedgerInv (db : Db D) : Prop where
  entries : EntryOrder db.ledger (committedOrders db)
  proofs : ∀ id, db.ledger.HasActiveProof id ↔ db.ledger.IsReady id
  stage : ∀ stage, db.stage = some stage → StageOrder db.ledger stage
  staging : db.stage.isSome = true ↔ ∃ cohort, db.cohort = some cohort ∧ cohort.lifecycle = .staging

/-- Whatever leaves the ledger and the stage alone keeps their order. -/
theorem LedgerInv.congr {db db' : Db D} (h : LedgerInv db) (hledger : db'.ledger = db.ledger)
    (hstage : db'.stage = db.stage)
    (hcohort : (∃ cohort, db'.cohort = some cohort ∧ cohort.lifecycle = .staging) ↔
      ∃ cohort, db.cohort = some cohort ∧ cohort.lifecycle = .staging) : LedgerInv db' := by
  have horders : committedOrders db' = committedOrders db := by
    unfold committedOrders
    rw [hstage, hledger]
  constructor
  · rw [hledger, horders]
    exact h.entries
  · rw [hledger]
    exact h.proofs
  · intro stage hs
    rw [hledger]
    exact h.stage stage (hstage ▸ hs)
  · rw [hstage, hcohort]
    exact h.staging

/-- The entries' order reads only the entries and the frontier. -/
theorem EntryOrder.congr {l l' : Ledger D} {orders : ℕ} (h : EntryOrder l orders)
    (hentries : l'.entries = l.entries) (hfrontier : l'.v2Frontier = l.v2Frontier) :
    EntryOrder l' orders := by
  have hstored : ∀ id e, Stored l' id e ↔ Stored l id e := by
    intro id e
    unfold Stored
    rw [hentries]
  constructor
  · intro id e he
    exact h.runs id e ((hstored id e).mp he)
  · intro id e id' e' he he'
    exact h.ordered id e id' e' ((hstored id e).mp he) ((hstored id' e').mp he')
  · intro id e id' e' he he'
    exact h.unique id e id' e' ((hstored id e).mp he) ((hstored id' e').mp he')
  · intro n
    simp only [hstored]
    exact h.consecutive n
  · intro f hf
    simp only [hstored]
    exact h.frontier f (hfrontier ▸ hf)
  · intro hf
    exact h.start (hfrontier ▸ hf)
  · intro id e he
    exact h.lineage id e ((hstored id e).mp he)

/-- Retiring an entry keeps its place. -/
theorem EntryOrder.retire {l : Ledger D} {orders : ℕ} (h : EntryOrder l orders) {id : D} {e : Entry D}
    (he : Stored l id e) {l' : Ledger D}
    (hentries : l'.entries = l.entries.put id (AckRetirement.Entry.retire e))
    (hfrontier : l'.v2Frontier = l.v2Frontier) : EntryOrder l' orders := by
  -- Every entry of the new ledger is an old one up to its state.
  have hback : ∀ x y, Stored l' x y → ∃ y', Stored l x y' ∧ y.startSequence = y'.startSequence ∧
      y.nextSequence = y'.nextSequence ∧ y.facts = y'.facts ∧ y.order = y'.order ∧
      y.sources = y'.sources := by
    intro x y hy
    unfold Stored at hy
    rw [hentries, Table.get_put] at hy
    by_cases hx : x = id
    · subst hx
      rw [if_pos rfl] at hy
      obtain rfl := Option.some.inj hy
      exact ⟨e, he, rfl, rfl, rfl, rfl, rfl⟩
    · rw [if_neg hx] at hy
      exact ⟨y, hy, rfl, rfl, rfl, rfl, rfl⟩
  have hforth : ∀ x y, Stored l x y → ∃ y', Stored l' x y' ∧ y'.order = y.order ∧
      y'.nextSequence = y.nextSequence := by
    intro x y hy
    unfold Stored
    rw [hentries, Table.get_put]
    by_cases hx : x = id
    · subst hx
      rw [if_pos rfl]
      obtain rfl : e = y := Option.some.inj (he.symm.trans hy)
      exact ⟨_, rfl, rfl, rfl⟩
    · rw [if_neg hx]
      exact ⟨y, hy, rfl, rfl⟩
  constructor
  · intro x y hy
    obtain ⟨y', hy', h1, h2, h3, -⟩ := hback x y hy
    rw [h1, h2, h3]
    exact h.runs x y' hy'
  · intro x y x' y' hy hy' hlt
    obtain ⟨z, hz, -, h2, -, h4, -⟩ := hback x y hy
    obtain ⟨z', hz', h1', -, -, h4', -⟩ := hback x' y' hy'
    rw [h2, h1']
    exact h.ordered x z x' z' hz hz' (by omega)
  · intro x y x' y' hy hy' heq
    obtain ⟨z, hz, -, -, -, h4, -⟩ := hback x y hy
    obtain ⟨z', hz', -, -, -, h4', -⟩ := hback x' y' hy'
    exact h.unique x z x' z' hz hz' (by omega)
  · intro n
    rw [← h.consecutive n]
    constructor
    · intro hex
      obtain ⟨x, y, hy, hn⟩ := hex
      obtain ⟨z, hz, -, -, -, h4, -⟩ := hback x y hy
      exact ⟨x, z, hz, by omega⟩
    · intro hex
      obtain ⟨x, y, hy, hn⟩ := hex
      obtain ⟨z, hz, h4, -⟩ := hforth x y hy
      exact ⟨x, z, hz, by omega⟩
  · intro f hf
    obtain ⟨x, y, hy, horder, hnext⟩ := h.frontier f (hfrontier ▸ hf)
    obtain ⟨z, hz, h4, h5⟩ := hforth x y hy
    exact ⟨x, z, hz, by omega, by omega⟩
  · intro hf
    exact h.start (hfrontier ▸ hf)
  · intro x y hy
    obtain ⟨z, hz, -, -, h3, -, h5⟩ := hback x y hy
    rw [h3, h5]
    exact h.lineage x z hz

theorem clears_inv {db : Db D} {ledger : Ledger D} (h : LedgerInv db)
    (hclears : Clears db.ledger ledger) : LedgerInv { db with ledger := ledger } := by
  cases hclears with
  | clear kept =>
    refine ⟨h.entries.congr rfl rfl, h.proofs, ?_, h.staging⟩
    intro stage hs
    obtain ⟨h1, h2, h3, h4, h5, h6, h7⟩ := h.stage stage hs
    exact ⟨h1, h2, h3, h4, h5, h6, h7⟩

/-- An acknowledged artifact keeps its place in the ledger. -/
theorem retires_inv {db : Db D} {ledger : Ledger D} (h : LedgerInv db)
    (hretires : Retires db.ledger ledger) : LedgerInv { db with ledger := ledger } := by
  cases hretires with
  | @retire id e p entry ready proof active =>
    refine ⟨h.entries.retire entry rfl rfl, ?_, ?_, h.staging⟩
    · intro x
      unfold Ledger.HasActiveProof Ledger.IsReady
      simp only [recordRetirement, Table.get_put, Table.get_delete]
      by_cases hx : x = id
      · subst hx
        simp [AckRetirement.Entry.retire]
      · simp only [if_neg hx]
        exact h.proofs x
    · intro stage hs
      obtain ⟨h1, h2, h3, h4, h5, h6, h7⟩ := h.stage stage hs
      exact ⟨h1, h2, h3, h4, h5, h6, h7⟩

/-- All entries end at or before the frontier. -/
theorem EntryOrder.next_le {l : Ledger D} {orders : ℕ} (h : EntryOrder l orders) {sequence : ℕ}
    (hafter : AfterFrontier l.v2Frontier sequence) {id : D} {e : Entry D} (he : Stored l id e) :
    e.nextSequence ≤ sequence := by
  have hlt : e.order < orders := (h.consecutive e.order).mp ⟨id, e, he, rfl⟩
  cases hf : l.v2Frontier with
  | none =>
    have := h.start hf
    omega
  | some f =>
    obtain ⟨top, t, ht, horder, hnext⟩ := h.frontier f hf
    have hsequence : f.sequence < sequence := hafter f hf
    by_cases hlast : e.order = t.order
    · obtain rfl := h.unique id e top t he ht hlast
      obtain rfl : e = t := Option.some.inj (he.symm.trans ht)
      omega
    · have hord := h.ordered id e top t he ht (by omega)
      have hne := (h.runs top t ht).1
      omega

/-- Committing the outstanding stage adds the entry with the greatest order and sequences. -/
theorem EntryOrder.commit {codec : Codec D} {l l' : Ledger D} {stage : Stage D} {g : PreparedGroup D}
    {digest : D} {cohortCursor : ℕ} (h : EntryOrder l stage.order) (hs : StageOrder l stage)
    (hstage : stageOf codec g stage.artifactId stage.order cohortCursor = stage)
    (hfresh : l.entries.get stage.artifactId = none)
    (hentries : l'.entries = l.entries.put stage.artifactId (v2LedgerEntry codec g stage digest))
    (hfrontier : l'.v2Frontier = some g.finalFrontier) : EntryOrder l' (stage.order + 1) := by
  set e := v2LedgerEntry codec g stage digest
  have hdescriptor : stage.descriptor = v2Descriptor codec g := by
    rw [← hstage]
    rfl
  have hfacts : stage.descriptor.facts = g.facts := by
    rw [hdescriptor]
    rfl
  have hfinal : stage.descriptor.finalFrontier = g.finalFrontier := by
    rw [hdescriptor]
    rfl
  obtain ⟨hruns, hnonempty, hlast, -, hafter, -, hranges⟩ := hs
  rw [hfacts] at hruns hnonempty hlast hafter hranges
  rw [hfinal] at hlast
  have hsplit : ∀ x y, Stored l' x y ↔ (x = stage.artifactId ∧ y = e) ∨ Stored l x y := by
    intro x y
    unfold Stored
    rw [hentries, Table.get_put]
    by_cases hx : x = stage.artifactId
    · subst hx
      rw [if_pos rfl, hfresh]
      simp [eq_comm]
    · simp [hx]
  have hbelow : ∀ x y, Stored l x y → y.order < stage.order := fun x y hy =>
    (h.consecutive y.order).mp ⟨x, y, hy, rfl⟩
  have horder : e.order = stage.order := rfl
  constructor
  · intro x y hy
    rcases (hsplit x y).mp hy with ⟨-, rfl⟩ | hy
    · exact ⟨hnonempty, hruns⟩
    · exact h.runs x y hy
  · intro x y x' y' hy hy' hlt
    rcases (hsplit x y).mp hy with ⟨-, rfl⟩ | hy
    · rcases (hsplit x' y').mp hy' with ⟨-, rfl⟩ | hy'
      · exact absurd hlt (lt_irrefl _)
      · have := hbelow x' y' hy'
        omega
    · rcases (hsplit x' y').mp hy' with ⟨-, rfl⟩ | hy'
      · exact h.next_le hafter hy
      · exact h.ordered x y x' y' hy hy' hlt
  · intro x y x' y' hy hy' heq
    rcases (hsplit x y).mp hy with ⟨rfl, rfl⟩ | hy
    · rcases (hsplit x' y').mp hy' with ⟨rfl, -⟩ | hy'
      · rfl
      · have := hbelow x' y' hy'
        omega
    · rcases (hsplit x' y').mp hy' with ⟨rfl, rfl⟩ | hy'
      · have := hbelow x y hy
        omega
      · exact h.unique x y x' y' hy hy' heq
  · intro n
    constructor
    · intro hex
      obtain ⟨x, y, hy, rfl⟩ := hex
      rcases (hsplit x y).mp hy with ⟨-, rfl⟩ | hy
      · omega
      · have := hbelow x y hy
        omega
    · intro hn
      by_cases hlt : n < stage.order
      · obtain ⟨x, y, hy, hxy⟩ := (h.consecutive n).mpr hlt
        exact ⟨x, y, (hsplit x y).mpr (.inr hy), hxy⟩
      · exact ⟨stage.artifactId, e, (hsplit _ _).mpr (.inl ⟨rfl, rfl⟩), by omega⟩
  · intro f hf
    obtain rfl : g.finalFrontier = f := Option.some.inj (hfrontier.symm.trans hf)
    exact ⟨stage.artifactId, e, (hsplit _ _).mpr (.inl ⟨rfl, rfl⟩), by omega, hlast⟩
  · intro hf
    rw [hfrontier] at hf
    cases hf
  · intro x y hy
    rcases (hsplit x y).mp hy with ⟨-, rfl⟩ | hy
    · intro t ht
      obtain ⟨s, hs, rfl⟩ := List.mem_map.mp ht
      refine hranges (stageRange codec s) ?_
      rw [hdescriptor]
      exact List.mem_map_of_mem hs
    · exact h.lineage x y hy

/-- Every durable step keeps the order of the ledger. -/
theorem effect_inv {codec : Codec D} {s s' : Db D × Log D} (h : LedgerInv s.1)
    (heffect : Effect codec s s') : LedgerInv s'.1 := by
  cases heffect with
  | @custody db log cohort admissions slices cursors coverage held accepted _ _ _ =>
    have hnot : ¬ ∃ c, db.cohort = some c ∧ c.lifecycle = .staging := by
      intro hc
      obtain ⟨c, hc, hstaging⟩ := hc
      obtain rfl : cohort = c := Option.some.inj (held.stored.symm.trans hc)
      rw [accepted] at hstaging
      cases hstaging
    refine h.congr rfl rfl ⟨?_, fun hc => absurd hc hnot⟩
    intro hc
    obtain ⟨c, hc, hstaging⟩ := hc
    simp only [custodyCommit] at hc
    split at hc
    · cases hc
    · obtain rfl := Option.some.inj hc
      rw [accepted] at hstaging
      cases hstaging
  | @reserve db log cohort admissions g rest later artifactId proof held accepted unstaged remaining
      grouped passed bound prepared initial fresh proof_eq =>
    have horders : committedOrders db = db.ledger.nextPublicOrder := by
      unfold committedOrders
      rw [unstaged]
    have hchain : Chain g.slices :=
      remaining.partition.chain.sublist (List.sublist_append_left g.slices rest)
    refine ⟨?_, ?_, ?_, ?_⟩
    · have := h.entries
      rw [horders] at this
      exact this.congr rfl rfl
    · intro x
      unfold Ledger.HasActiveProof
      simp only [reservation, Table.get_put]
      by_cases hx : x = artifactId
      · subst hx
        obtain ⟨hstaging, -⟩ := stageProof_ok proof_eq
        have hready := h.proofs x
        unfold Ledger.HasActiveProof at hready
        rw [fresh] at hready
        have hnot : ¬ db.ledger.IsReady x := by simpa using hready
        constructor
        · intro hp
          obtain ⟨p, hp, hactive⟩ := hp
          rw [if_pos (by rfl)] at hp
          obtain rfl := Option.some.inj hp
          rw [hstaging] at hactive
          cases hactive
        · exact fun hr => absurd hr hnot
      · have hne : x ≠ (stageOf codec g artifactId db.ledger.nextPublicOrder
          cohort.cursor).artifactId := hx
        simp only [if_neg hne]
        exact h.proofs x
    · intro stage hs
      obtain rfl := Option.some.inj hs
      exact stageOrder_reserve hchain prepared initial
        (fun s hs => remaining.after s (by simp [hs])) rfl rfl
    · exact ⟨fun _ => ⟨_, rfl, rfl⟩, fun _ => rfl⟩
  | @materialize db log stage staged absent =>
    refine ⟨h.entries.congr rfl rfl, h.proofs, ?_, h.staging⟩
    intro stage hs
    obtain ⟨h1, h2, h3, h4, h5, h6, h7⟩ := h.stage stage hs
    exact ⟨h1, h2, h3, h4, h5, h6, h7⟩
  | @latch db log =>
    have horders : committedOrders { db with
        stage := db.stage.map fun s => { s with failed := true } } = committedOrders db := by
      unfold committedOrders
      cases db.stage <;> rfl
    refine ⟨?_, h.proofs, ?_, ?_⟩
    · rw [horders]
      exact h.entries
    · intro stage hs
      obtain ⟨old, hold, rfl⟩ := Option.map_eq_some_iff.mp hs
      obtain ⟨h1, h2, h3, h4, h5, h6, h7⟩ := h.stage old hold
      exact ⟨h1, h2, h3, h4, h5, h6, h7⟩
    · simpa using h.staging
  | @commit db log cohort admissions stage g proof coverage held staging staged loaded proof_eq stored
      fresh coverage_eq =>
    have horders : committedOrders db = stage.order := by
      unfold committedOrders
      rw [staged]
    have hs := h.stage stage staged
    have hentries := h.entries
    rw [horders] at hentries
    refine ⟨?_, ?_, ?_, ?_⟩
    · have hnext : committedOrders (stageCommit codec cohort stage g proof
          (admissions.map fun a => (a, typedMemberProgress g.facts a)) coverage db) =
            stage.order + 1 := hs.order.symm
      rw [hnext]
      exact hentries.commit hs loaded.stage fresh rfl rfl
    · intro x
      unfold Ledger.HasActiveProof Ledger.IsReady
      simp only [stageCommit, Table.get_put]
      by_cases hx : x = stage.artifactId
      · subst hx
        simp [v2LedgerEntry]
      · simp only [if_neg hx]
        exact h.proofs x
    · intro stage' hs'
      cases hs'
    · constructor
      · intro hsome
        cases hsome
      · intro hc
        obtain ⟨c, hc, hstaging⟩ := hc
        simp only [stageCommit] at hc
        split at hc
        · cases hc
        · obtain rfl := Option.some.inj hc
          cases hstaging
  | @accept db log o admissions slices idle _ _ _ _ _ _ _ =>
    have hnot : ¬ ∃ c, db.cohort = some c ∧ c.lifecycle = .staging := by
      rw [idle]
      simp
    refine h.congr rfl rfl ⟨?_, fun hc => absurd hc hnot⟩
    intro hc
    obtain ⟨c, hc, hstaging⟩ := hc
    obtain rfl := Option.some.inj hc
    cases hstaging
  | clear clears => exact clears_inv h clears
  | cover => exact h.congr rfl rfl Iff.rfl
  | block => exact h.congr rfl rfl Iff.rfl
  | summaries => exact h.congr rfl rfl Iff.rfl
  | wait => exact h.congr rfl rfl Iff.rfl
  | coalesce => exact h.congr rfl rfl Iff.rfl
  | failStop => exact h
  | retirePage => exact h.congr rfl rfl Iff.rfl
  | finish => exact h.congr rfl rfl Iff.rfl

/-- The ready artifacts of an authenticated view. -/
theorem mem_custody_active {l : Ledger D} {a : ActiveArtifact D} :
    a ∈ (custody l).active ↔
      Stored l a.id a.entry ∧ a.entry.state = .ready ∧ l.proofs.get a.id = some a.proof := by
  unfold custody Stored
  simp only [List.mem_insertionSort, List.mem_filterMap, List.mem_filter, Option.map_eq_some_iff]
  constructor
  · intro h
    obtain ⟨r, ⟨hr, hready⟩, p, hp, rfl⟩ := h
    exact ⟨Table.get_eq_some.mpr hr, by simpa using hready, hp⟩
  · intro h
    refine ⟨(a.id, a.entry), ⟨Table.get_eq_some.mp h.1, by simpa using h.2.1⟩, a.proof, h.2.2, rfl⟩

theorem nodup_custody_active (l : Ledger D) : ((custody l).active.map (·.id)).Nodup := by
  have hperm := (List.perm_insertionSort
    (fun a b : ActiveArtifact D => a.entry.startSequence ≤ b.entry.startSequence)
    ((l.entries.rows.filter fun r => r.2.state = .ready).filterMap fun r =>
      (l.proofs.get r.1).map fun proof => (⟨r.1, r.2, proof⟩ : ActiveArtifact D))).map (·.id)
  refine hperm.nodup_iff.mpr ?_
  have hsub : (((l.entries.rows.filter fun r => r.2.state = .ready).filterMap fun r =>
      (l.proofs.get r.1).map fun proof => (⟨r.1, r.2, proof⟩ : ActiveArtifact D)).map (·.id)).Sublist
      ((l.entries.rows.filter fun r => r.2.state = .ready).map Prod.fst) := by
    induction l.entries.rows.filter fun r => r.2.state = .ready with
    | nil => simp
    | cons r rows ih =>
      rw [List.filterMap_cons]
      cases l.proofs.get r.1 with
      | none => exact ih.trans (by simp)
      | some p => simpa using ih
  exact (hsub.trans (List.filter_sublist.map _)).nodup l.entries.nodup

/-- The runs of all ready artifacts are in order. -/
theorem LedgerInv.sortedRuns {db : Db D} (h : LedgerInv db) :
    SortedRuns (readyRuns (custody db.ledger)) := by
  have hinside : ∀ a ∈ (custody db.ledger).active, ∀ r ∈ typedActiveSegments a,
      r.1.start < r.1.stop ∧ a.entry.startSequence ≤ r.1.start ∧
        r.1.stop ≤ a.entry.nextSequence := by
    intro a ha r hr
    obtain ⟨hstored, -, -⟩ := mem_custody_active.mp ha
    have hrun : r.1 ∈ physicalRuns a.entry.facts := by
      have := List.mem_map_of_mem (f := Prod.fst) hr
      rwa [typedActiveSegments, segmentsFrom_fst] at this
    exact (h.entries.runs _ _ hstored).2.inside r.1 hrun
  -- Starts are sorted and identities differ, so spans are in order.
  have hspans : (custody db.ledger).active.Pairwise fun a b =>
      a.entry.nextSequence ≤ b.entry.startSequence := by
    have hsorted : (custody db.ledger).active.Pairwise fun a b =>
        a.entry.startSequence ≤ b.entry.startSequence := by
      have : Std.Total fun a b : ActiveArtifact D =>
          a.entry.startSequence ≤ b.entry.startSequence := ⟨fun _ _ => le_total _ _⟩
      have : IsTrans _ fun a b : ActiveArtifact D =>
          a.entry.startSequence ≤ b.entry.startSequence := ⟨fun _ _ _ => le_trans⟩
      exact List.pairwise_insertionSort _ _
    have hids := List.pairwise_map.mp (nodup_custody_active db.ledger)
    refine (hsorted.and hids).imp_of_mem ?_
    intro a b ha hb hab
    obtain ⟨ha, -, -⟩ := mem_custody_active.mp ha
    obtain ⟨hb, -, -⟩ := mem_custody_active.mp hb
    have hne : a.entry.order ≠ b.entry.order := fun heq =>
      hab.2 (h.entries.unique _ _ _ _ ha hb heq)
    rcases lt_or_gt_of_ne hne with hlt | hgt
    · exact h.entries.ordered _ _ _ _ ha hb hlt
    · have h1 := h.entries.ordered _ _ _ _ hb ha hgt
      have h2 := (h.entries.runs _ _ hb).1
      omega
  constructor
  · unfold readyRuns
    rw [List.pairwise_flatten]
    constructor
    · intro segments hs
      obtain ⟨a, ha, rfl⟩ := List.mem_map.mp hs
      obtain ⟨hstored, -, -⟩ := mem_custody_active.mp ha
      have hord := (h.entries.runs _ _ hstored).2.ordered
      have hfst : (typedActiveSegments a).map Prod.fst = physicalRuns a.entry.facts :=
        segmentsFrom_fst
      rw [← hfst, List.pairwise_map] at hord
      exact hord
    · rw [List.pairwise_map]
      refine hspans.imp_of_mem ?_
      intro a b ha hb hab r hr r' hr'
      have h1 := hinside a ha r hr
      have h2 := hinside b hb r' hr'
      omega
  · intro r hr
    obtain ⟨segments, hs, hr⟩ := List.mem_flatten.mp hr
    obtain ⟨a, ha, rfl⟩ := List.mem_map.mp hs
    exact (hinside a ha r hr).1

end LedgerOrder
