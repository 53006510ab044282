import OmiCollector.CaptureIntegrity

/-! Replay and chunking independence: a writer fed from one record stream.

The abstract log of a stream is a number, the count of leading records accepted so far.
Drains cut anywhere, overlapping replays and partial tails all refine that one counter. -/
namespace CaptureReplay

open ByteCodec AudioMachine CaptureModel RefusalLogic CaptureStore CaptureRows CaptureInvariant
  CaptureCommits CaptureIntegrity TransitionRuns

variable {D : Type}

/-- The bytes a device holds for a source, cut into wire records. -/
structure RecordStream where
  record : ℕ → Bytes
  size : ∀ i, (record i).length = audioRecordSize

def RecordStream.byteAt (S : RecordStream) (position : ℕ) : Option UInt8 :=
  (S.record (position / audioRecordSize))[position % audioRecordSize]?

/-- The rows of the first `n` records. -/
def RecordStream.rows (S : RecordStream) (n : ℕ) : List CaptureRecord :=
  parseRecords 0 ((List.range n).map S.record)

/-- The tail's bytes are the stream's bytes at its stated offset. -/
def TailOf (S : RecordStream) (t : CaptureTail) : Prop :=
  ∀ k < t.data.length, t.data[k]? = S.byteAt (t.byteOffset.toNat + k)

/-- Every record and tail that the call carries is a slice of the stream where it says. -/
def FromStream (S : RecordStream) : Call D → Prop
  | .commitDrain _ expected records checkpoint =>
    (∀ i raw, records[i]? = some raw → raw = S.record (expected.toNat + i)) ∧
      ∀ t, checkpoint.tail = some t → TailOf S t
  | .commitTail _ _ checkpoint => ∀ t, checkpoint.tail = some t → TailOf S t
  | _ => True

/-- The store holds a prefix of the stream and part of the next record. -/
structure Tracks (S : RecordStream) (st : Store D) : Prop where
  unblocked : ∀ s, st.source = some s → s.lifecycle ≠ .blocked
  rows : st.records = S.rows st.records.length
  tail : ∀ t, st.tail = some t → t.data <+: S.record st.records.length

/-- The record frontier that an accepted commit call has covered. -/
def frontier : Call D → Except String ℕ → ℕ
  | .commitDrain _ expected records _, .ok _ => expected.toNat + records.length
  | .commitTail _ expected _, .ok _ => expected.toNat
  | _, _ => 0

/-- The largest record frontier of the accepted calls of a run. -/
def reached [DecidableEq D] (cfg : StoreConfig D) : Store D → List (Call D) → ℕ
  | _, [] => 0
  | st, call :: calls =>
    max (frontier call (outcome cfg st call)) (reached cfg (step cfg st call) calls)

theorem parseRecords_append (first : ℕ) (xs ys : List Bytes) :
    parseRecords first (xs ++ ys) =
      parseRecords first xs ++ parseRecords (first + xs.length) ys := by
  induction xs generalizing first with
  | nil => simp [parseRecords]
  | cons x xs ih =>
    have hlen : first + 1 + xs.length = first + (xs.length + 1) := by omega
    rw [List.cons_append, parseRecords_cons, ih, parseRecords_cons, List.cons_append,
      List.length_cons, hlen]

theorem RecordStream.length_rows (S : RecordStream) (n : ℕ) : (S.rows n).length = n := by
  simp [RecordStream.rows]

theorem RecordStream.getElem?_rows (S : RecordStream) {n k : ℕ} (h : k < n) :
    ((S.rows n)[k]?).map CaptureRecord.rawBytes = some (S.record k) := by
  have hsize : ∀ b ∈ (List.range n).map S.record, b.length = audioRecordSize := by
    intro b hb
    obtain ⟨i, -, rfl⟩ := List.mem_map.mp hb
    exact S.size i
  rw [← List.getElem?_map, RecordStream.rows, parseRecords_rawBytes 0 hsize, List.getElem?_map,
    List.getElem?_range h]
  rfl

/-- Slices of the stream that continue the rows continue the stream's rows. -/
theorem RecordStream.rows_add (S : RecordStream) (n : ℕ) {raw : List Bytes}
    (h : ∀ i b, raw[i]? = some b → b = S.record (n + i)) :
    S.rows (n + raw.length) = S.rows n ++ parseRecords n raw := by
  have hraw : raw = (List.range raw.length).map (fun i => S.record (n + i)) := by
    apply List.ext_getElem?
    intro i
    by_cases hi : i < raw.length
    · rw [List.getElem?_map, List.getElem?_range hi, List.getElem?_eq_getElem hi,
        h i _ (List.getElem?_eq_getElem hi)]
      rfl
    · rw [List.getElem?_eq_none (by omega), List.getElem?_eq_none (by simp; omega)]
  unfold RecordStream.rows
  rw [List.range_add, List.map_append, parseRecords_append, List.map_map]
  simp only [List.length_map, List.length_range, Nat.zero_add]
  conv_rhs => rw [hraw]
  rfl

/-- A well-placed slice starts the record it stands in. -/
theorem TailOf.starts {S : RecordStream} {t : CaptureTail} (h : TailOf S t)
    (hpos : 0 ≤ t.completeHighWater) (hoff : t.byteOffset = t.completeHighWater * audioRecordSize)
    (hlen : t.data.length ≤ tailMaxBytes) : t.data <+: S.record t.completeHighWater.toNat := by
  obtain ⟨c, hc⟩ := Int.eq_ofNat_of_zero_le hpos
  rw [hc] at hoff ⊢
  have hoffset : t.byteOffset.toNat = c * audioRecordSize := by omega
  simp only [Int.toNat_natCast]
  have hsize := S.size c
  simp only [tailMaxBytes] at hlen
  rw [List.prefix_iff_eq_take]
  apply List.ext_getElem?
  intro k
  by_cases hk : k < t.data.length
  · have hkr : k < audioRecordSize := by simp only [audioRecordSize]; omega
    rw [h k hk, List.getElem?_take_of_lt hk, RecordStream.byteAt, hoffset]
    have hdiv : (c * audioRecordSize + k) / audioRecordSize = c := by
      rw [Nat.add_comm, Nat.add_mul_div_right _ _ (by simp [audioRecordSize]),
        Nat.div_eq_of_lt hkr, Nat.zero_add]
    have hmod : (c * audioRecordSize + k) % audioRecordSize = k := by
      rw [Nat.add_comm, Nat.add_mul_mod_self_right, Nat.mod_eq_of_lt hkr]
    rw [hdiv, hmod]
  · rw [List.getElem?_eq_none (by omega), List.getElem?_eq_none (by simp; omega)]

theorem initial_tracks (S : RecordStream) : Tracks S (initial : Store D) := by
  refine ⟨?_, rfl, ?_⟩
  · intro s hs
    simp [initial] at hs
  · intro t ht
    simp [initial] at ht

section Commit

variable {S : RecordStream} {cfg : StoreConfig D} {st t : Store D} {s : CaptureSource D}
  {expected : ℕ} {records : List Bytes} {incoming : Option CaptureTail}

theorem stream_replays (ht : Tracks S st)
    (hrec : ∀ i raw, records[i]? = some raw → raw = S.record (expected + i)) :
    Replays st.records expected records := by
  intro i r raw hr hraw
  have hlt := (List.getElem?_eq_some_iff.mp hr).1
  have hrow := S.getElem?_rows hlt
  rw [← ht.rows, hr] at hrow
  rw [hrec i raw hraw]
  exact Option.some.inj hrow

/-- Old and new rows together are rows of the stream. -/
theorem stream_rows (hi : SourceInvariant cfg st s) (ht : Tracks S st)
    (hexp : expected ≤ s.committedCount)
    (hrec : ∀ i raw, records[i]? = some raw → raw = S.record (expected + i)) :
    st.records ++ newRows s expected records =
      S.rows (s.committedCount + (newRows s expected records).length) := by
  have hcount := hi.count
  have hdrop : ∀ i b, (records.drop (s.committedCount - expected))[i]? = some b →
      b = S.record (s.committedCount + i) := by
    intro i b hb
    rw [List.getElem?_drop] at hb
    have hb' := hrec _ b hb
    rw [hb']
    congr 1
    omega
  have hadd := S.rows_add s.committedCount hdrop
  have hlen : (newRows s expected records).length =
      (records.drop (s.committedCount - expected)).length := by simp [newRows]
  rw [hlen, hadd, ← hcount, ← ht.rows, hcount]
  rfl

theorem stream_tail_starts (hi : SourceInvariant cfg st s) {newCount : ℕ} {x : CaptureTail}
    (hx : TailOf S x) (ha : TailArgument s newCount x) :
    0 ≤ x.completeHighWater ∧ x.data <+: S.record x.completeHighWater.toNat := by
  have hfloor := ha.floor
  have hleg := hi.legFloor
  have hpos : 0 ≤ x.completeHighWater := by omega
  exact ⟨hpos, hx.starts hpos ha.offset ha.bounded⟩

theorem comparable_of_starts {a b c : Bytes} (ha : a <+: c) (hb : b <+: c) : Comparable a b :=
  List.prefix_or_prefix_of_prefix ha hb

/-- Slices of one stream cannot contradict each other. -/
theorem stream_no_conflict (hi : SourceInvariant cfg st s) (ht : Tracks S st)
    (hexp : expected ≤ s.committedCount)
    (hrec : ∀ i raw, records[i]? = some raw → raw = S.record (expected + i))
    (htail : ∀ x, incoming = some x → TailOf S x) {offset : ℤ} {rejected : Bytes} {e : String}
    (hc : TailConflict s st.records (newRows s expected records) st.tail incoming offset
      rejected e) : False := by
  have hcount := hi.count
  have hrows := stream_rows hi ht hexp hrec
  have hat : ∀ k r, (st.records ++ newRows s expected records)[k]? = some r →
      r.rawBytes = S.record k := by
    intro k r hr
    rw [hrows] at hr
    have hlt : k < s.committedCount + (newRows s expected records).length := by
      have := (List.getElem?_eq_some_iff.mp hr).1
      rwa [S.length_rows] at this
    have hrow := S.getElem?_rows hlt
    rw [hr] at hrow
    exact Option.some.inj hrow
  cases hc with
  | completed p r hp hr hne =>
    apply hne
    rw [hat s.committedCount r]
    · rw [← hcount]
      exact ht.tail p hp
    · rw [List.getElem?_append_right (by omega), hcount, Nat.sub_self, ← List.head?_eq_getElem?]
      exact hr
  | replayed x r hx ha _ _ hr hne =>
    apply hne
    rw [hat _ r hr]
    exact (stream_tail_starts hi (htail x hx) ha).2
  | diverged p x hp hx _ ha hcomplete hne =>
    apply hne
    have hstart := (stream_tail_starts hi (htail x hx) ha).2
    rw [hcomplete, Int.toNat_natCast, ← hcount] at hstart
    exact comparable_of_starts (ht.tail p hp) hstart

/-- A settled tail is again part of the next stream record. -/
theorem stream_tail (hi : SourceInvariant cfg st s) (ht : Tracks S st)
    (htail : ∀ x, incoming = some x → TailOf S x) {appended : List CaptureRecord}
    (hcheck : TailAccepted s st.records appended st.tail incoming) {x : CaptureTail}
    (hx : mergedTail s.committedCount (s.committedCount + appended.length) st.tail incoming =
      some x) : x.data <+: S.record (s.committedCount + appended.length) := by
  have hcount := hi.count
  have hkept : ∀ p, (if s.committedCount + appended.length = s.committedCount then st.tail
      else none) = some p → p.data <+: S.record (s.committedCount + appended.length) := by
    intro p hp
    split at hp
    · rename_i hsame
      rw [hsame, ← hcount]
      exact ht.tail p hp
    · simp at hp
  have hfresh : ∀ y, incoming = some y →
      ¬ y.completeHighWater < (s.committedCount + appended.length : ℕ) →
      y.data <+: S.record (s.committedCount + appended.length) := by
    intro y hy hge
    have ha := hcheck.argument y hy
    have hceil := ha.ceiling
    have hstart := (stream_tail_starts hi (htail y hy) ha).2
    rwa [show y.completeHighWater.toNat = s.committedCount + appended.length by omega] at hstart
  cases hincoming : incoming with
  | none =>
    rw [hincoming] at hx
    exact hkept x hx
  | some y =>
    rw [hincoming] at hx
    by_cases hlt : y.completeHighWater < (s.committedCount + appended.length : ℕ)
    · rw [mergedTail_inside hlt] at hx
      exact hkept x hx
    · simp only [mergedTail, if_neg hlt] at hx
      split at hx
      · exact Option.some.inj hx ▸ hfresh y hincoming hlt
      · rename_i p hp
        split at hx
        · exact Option.some.inj hx ▸ hfresh y hincoming hlt
        · exact Option.some.inj hx ▸ hkept p hp

/-- What a stream-fed call does: it stays on the stream, retains no conflict, and moves the
frontier to the larger of the old one and its own. -/
structure StreamStep (S : RecordStream) (st t : Store D) (result : Except String ℕ)
    (covered : ℕ) : Prop where
  tracks : Tracks S t
  conflicts : t.conflicts = st.conflicts
  clean : ∀ e, result = .error e → e ∉ conflictTexts
  count : t.records.length = max st.records.length covered

theorem commit_streamStep {now : ℕ} {result : Except String ℕ} (covered : Except String ℕ → ℕ)
    (h : CommitOutcome cfg now st s expected records incoming result t) (hi : Integrity cfg st)
    (hs : st.source = some s) (ht : Tracks S st)
    (hrec : ∀ i raw, records[i]? = some raw → raw = S.record (expected + i))
    (htail : ∀ x, incoming = some x → TailOf S x)
    (hok : ∀ n, covered (.ok n) = expected + records.length)
    (herr : ∀ e, covered (.error e) = 0) : StreamStep S st t result (covered result) := by
  have hsrc := hi.present s hs
  have hcount := hsrc.count
  cases h with
  | refused he hu =>
    refine ⟨⟨?_, ?_, ?_⟩, hu.conflicts, ?_, ?_⟩
    · intro s' hs'
      exact ht.unblocked s' (hu.source ▸ hs')
    · rw [hu.records]; exact ht.rows
    · rw [hu.records, hu.tail]; exact ht.tail
    · rintro _ ⟨⟩
      exact he
    · rw [hu.records, herr]; simp
  | accepted hl hexp _ _ _ hext =>
    have hnew := length_newRows s expected records
    have hlen : t.records.length = s.committedCount + (newRows s expected records).length := by
      rw [hext.records, List.length_append, hcount]
    refine ⟨⟨?_, ?_, ?_⟩, hext.conflicts, by simp, ?_⟩
    · intro s' hs'
      obtain rfl := Option.some.inj (hext.source.symm.trans hs')
      simp [hl]
    · rw [hlen, hext.records]
      exact stream_rows hsrc ht hexp hrec
    · intro x hx
      rw [hlen]
      rw [hext.tail] at hx
      exact stream_tail hsrc ht htail hext.check hx
    · rw [hlen, hnew, hcount, hok]
      omega
  | replayConflict _ _ _ hne _ => exact absurd (stream_replays ht hrec) hne
  | tailConflict _ hexp _ _ _ hc => exact (stream_no_conflict hsrc ht hexp hrec htail hc).elim

/-- A call that cannot succeed leaves the stream state alone. -/
theorem refused_streamStep (ht : Tracks S st) {e : String} (h : CleanRefusal st e t) :
    StreamStep S st t (.error e) 0 := by
  obtain ⟨he, rfl⟩ := h
  refine ⟨ht, rfl, ?_, by simp⟩
  rintro _ ⟨⟩
  exact he

theorem absent_streamStep (ht : Tracks S st) {x : StoreM D ℕ} (covered : Except String ℕ → ℕ)
    (herr : ∀ e, covered (.error e) = 0)
    (h : wp x st (fun _ _ => False) (CleanRefusal st)) :
    StreamStep S st (exec x st).2 (exec x st).1 (covered (exec x st).1) := by
  refine wp_outcome (P := fun r u => StreamStep S st u r (covered r)) |>.mp
    (wp_mono h (fun _ _ hf => hf.elim) ?_)
  intro e u hu
  rw [herr]
  exact refused_streamStep ht hu

end Commit

section Runs

variable [DecidableEq D] {S : RecordStream} {cfg : StoreConfig D} {st : Store D}

theorem leg_streamStep (hi : Integrity cfg st) (ht : Tracks S st) {call : Call D}
    (h : Call.IsLeg call) :
    StreamStep S st (step cfg st call) (outcome cfg st call) 0 := by
  refine wp_outcome (P := fun r u => StreamStep S st u r 0) |>.mp
    (wp_mono (leg_effect hi h) ?_ (fun _ _ hu => refused_streamStep ht hu))
  intro n t hleg
  refine ⟨⟨?_, ?_, ?_⟩, hleg.conflicts, by simp, by simp [hleg.records]⟩
  · intro s' hs' hb
    exact ht.unblocked s' (hleg.unblocked s' hs' hb) hb
  · rw [hleg.records]; exact ht.rows
  · rw [hleg.records, hleg.tail]; exact ht.tail

/-- One stream-fed call. -/
theorem step_streamStep (hi : Integrity cfg st) (ht : Tracks S st) {call : Call D}
    (hcall : FromStream S call) :
    StreamStep S st (step cfg st call) (outcome cfg st call)
      (frontier call (outcome cfg st call)) := by
  cases call with
  | commitDrain now expected records checkpoint =>
    obtain ⟨hrec, htail⟩ := hcall
    cases hs : st.source with
    | none =>
      exact absent_streamStep ht (frontier (.commitDrain now expected records checkpoint))
        (fun _ => rfl) (commitDrain_absent hs expected records checkpoint)
    | some s =>
      exact commit_streamStep (frontier (.commitDrain now expected records checkpoint))
        (wp_outcome.mp (commitDrain_outcome hs hi expected records checkpoint)) hi hs ht hrec
        htail (fun _ => rfl) (fun _ => rfl)
  | commitTail now expected checkpoint =>
    cases hs : st.source with
    | none =>
      exact absent_streamStep ht (frontier (.commitTail now expected checkpoint))
        (fun _ => rfl) (commitTail_absent hs expected checkpoint)
    | some s =>
      exact commit_streamStep (frontier (.commitTail now expected checkpoint))
        (wp_outcome.mp (commitTail_outcome hs hi expected checkpoint)) hi hs ht (by simp) hcall
        (fun _ => rfl) (fun _ => rfl)
  | reopen =>
    obtain ⟨hsource, hrecords, htail, hconflicts, -⟩ := reopen_recached cfg st
    have hok : outcome cfg st .reopen = .ok 0 := rfl
    refine ⟨⟨?_, ?_, ?_⟩, hconflicts, by simp [hok], by simp [hrecords, frontier]⟩
    · intro s hs
      exact ht.unblocked s (hsource ▸ hs)
    · rw [hrecords]; exact ht.rows
    · rw [hrecords, htail]; exact ht.tail
  | createSource | prepareLeg | recordReadBegin | interrupt | sealSource =>
    exact leg_streamStep hi ht trivial

/-- A stream-fed run stays on the stream and its count is the largest frontier covered. -/
theorem run_tracks (hi : Integrity cfg st) (ht : Tracks S st) {calls : List (Call D)}
    (h : ∀ call ∈ calls, FromStream S call) :
    Tracks S (run (step cfg) st calls) ∧
      (run (step cfg) st calls).conflicts = st.conflicts ∧
      (run (step cfg) st calls).records.length = max st.records.length (reached cfg st calls) := by
  induction calls generalizing st with
  | nil => exact ⟨ht, rfl, by simp [reached]⟩
  | cons call calls ih =>
    have hstep := step_streamStep hi ht (h call (by simp))
    obtain ⟨hrun, hconflicts, hcount⟩ := ih (step_effect hi call).integrity hstep.tracks
      (fun c hc => h c (by simp [hc]))
    refine ⟨hrun, hconflicts.trans hstep.conflicts, ?_⟩
    rw [run_cons, hcount, hstep.count, reached, max_assoc]

/-- A writer fed from one stream is never blocked, holds exactly the records up to the largest
frontier of its accepted calls, and two such writers at one frontier hold the same log. -/
theorem replay_chunking_independence (cfg : StoreConfig D) (S : RecordStream)
    (calls : List (Call D)) (h : ∀ call ∈ calls, FromStream S call) :
    (∀ before call after, calls = before ++ call :: after → ∀ e,
      outcome cfg (run (step cfg) initial before) call = .error e → e ∉ conflictTexts) ∧
    (run (step cfg) initial calls).conflicts = [] ∧
    (∀ s, (run (step cfg) initial calls).source = some s →
      s.lifecycle ≠ .blocked ∧ s.committedCount = reached cfg initial calls ∧
      (run (step cfg) initial calls).records = S.rows s.committedCount ∧
      ∀ t, (run (step cfg) initial calls).tail = some t → t.data <+: S.record s.committedCount) ∧
    (∀ calls', (∀ call ∈ calls', FromStream S call) → ∀ s s',
      (run (step cfg) initial calls).source = some s →
      (run (step cfg) initial calls').source = some s' →
      reached cfg initial calls' = reached cfg initial calls →
      (run (step cfg) initial calls').records = (run (step cfg) initial calls).records ∧
        s'.committedSha256 = s.committedSha256) := by
  have hlog : ∀ cs : List (Call D), (∀ call ∈ cs, FromStream S call) →
      Tracks S (run (step cfg) initial cs) ∧ (run (step cfg) initial cs).conflicts = [] ∧
        (run (step cfg) initial cs).records = S.rows (reached cfg initial cs) := by
    intro cs hcs
    obtain ⟨htracks, hconflicts, hcount⟩ :=
      run_tracks (initial_integrity cfg) (initial_tracks S) hcs
    have hzero : (run (step cfg) initial cs).records.length = reached cfg initial cs := by
      rw [hcount]; simp [initial]
    exact ⟨htracks, hconflicts, hzero ▸ htracks.rows⟩
  obtain ⟨htracks, hconflicts, hrows⟩ := hlog calls h
  refine ⟨?_, hconflicts, ?_, ?_⟩
  · rintro before call after rfl e he
    have hbefore := (hlog before (fun c hc => h c (by simp [hc]))).1
    exact (step_streamStep (run_integrity cfg before) hbefore (h call (by simp))).clean e he
  · intro s hs
    have hcount := ((run_integrity cfg calls).present s hs).count
    have hreached : s.committedCount = reached cfg initial calls := by
      rw [← hcount, hrows, S.length_rows]
    refine ⟨htracks.unblocked s hs, hreached, hreached ▸ hrows, ?_⟩
    rw [← hcount]
    exact htracks.tail
  · intro calls' h' s s' hs hs' hsame
    have hrows' := (hlog calls' h').2.2
    have heq : (run (step cfg) initial calls').records = (run (step cfg) initial calls).records := by
      rw [hrows', hrows, hsame]
    refine ⟨heq, ?_⟩
    rw [((run_integrity cfg calls').present s' hs').digest,
      ((run_integrity cfg calls).present s hs).digest, heq]

end Runs

/-- A hash that keeps its whole input, so that witnesses can be evaluated. -/
def transparentConfig : StoreConfig Bytes :=
  ⟨fun bytes => bytes, 128, by decide, by decide, 0⟩

/-- The stream of silent records. -/
def silence : RecordStream := ⟨fun _ => List.replicate audioRecordSize 0, by simp⟩

/-- Two records with a partial third, then a replay of the second with the rest. -/
def silentCalls : List (Call Bytes) :=
  [.createSource (some .attempt) 10 13, .prepareLeg 10 3, .recordReadBegin 10 3,
    .commitDrain 0 0 [silence.record 0, silence.record 1]
      ⟨1, some ⟨1, 2, 893, 888, [0, 0, 0, 0, 0]⟩, none⟩,
    .interrupt, .prepareLeg 11 2, .recordReadBegin 11 2,
    .commitDrain 0 1 [silence.record 1, silence.record 2] ⟨2, none, none⟩]

theorem silentCalls_fromStream : ∀ call ∈ silentCalls, FromStream silence call := by
  have hslice : ∀ k < 5, ([0, 0, 0, 0, 0] : Bytes)[k]? = silence.byteAt (888 + k) := by
    decide
  have hpair : ∀ n i raw, [silence.record 0, silence.record 1][i]? = some raw →
      raw = silence.record (n + i) := by
    intro n i raw hi
    rcases i with _ | _ | i <;> simp_all [silence]
  simp only [silentCalls, List.forall_mem_cons, FromStream, true_and]
  refine ⟨⟨hpair _, ?_⟩, ⟨hpair _, by simp⟩, by simp⟩
  rintro t ⟨⟩
  exact hslice

theorem silentCalls_count :
    (run (step transparentConfig) initial silentCalls).source.map (·.committedCount) =
      some 3 := by
  decide +kernel

theorem replay_chunking_independence_silence :
    (∀ call ∈ silentCalls, FromStream silence call) ∧
      (run (step transparentConfig) initial silentCalls).records = silence.rows 3 := by
  refine ⟨silentCalls_fromStream, ?_⟩
  obtain ⟨s, hs, hcount⟩ := Option.map_eq_some_iff.mp silentCalls_count
  have hlog := (replay_chunking_independence transparentConfig silence silentCalls
    silentCalls_fromStream).2.2.1 s hs
  exact hcount ▸ hlog.2.2.1

end CaptureReplay
