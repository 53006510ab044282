import OmiCollector.AckRetirement

/-! Acknowledgement retirement is checked as a whole, exact and restartable.

Every write of a call either removes files of artifacts that are no longer ready, or retires one
listed artifact. Both keep the ledger, its proofs and its ready directories in agreement, so a
process may stop anywhere and a later call continues from there. -/
namespace AckExactness

open KeyedTable PublicationLedger AckRetirement RefusalLogic TransitionRuns

variable {D : Type}

/-- Parts of a world that no step of the retirement itself changes for the worse. -/
structure Frame (w t : World D) : Prop where
  steps : w.steps = none → t.steps = none
  defers : w.defers = [] → t.defers = []
  recovery : t.retiredRecoveryDone = w.retiredRecoveryDone

theorem Frame.refl (w : World D) : Frame w w := ⟨fun h => h, fun h => h, rfl⟩

theorem Frame.trans {w t u : World D} (h : Frame w t) (h' : Frame t u) : Frame w u :=
  ⟨fun hs => h'.steps (h.steps hs), fun hd => h'.defers (h.defers hd),
    h'.recovery.trans h.recovery⟩

theorem wp_fromExcept {α : Type} {w : World D} {x : Except String α} {Q : α → World D → Prop}
    {E : Stop → World D → Prop} (hq : ∀ a, x = .ok a → Q a w)
    (he : ∀ e, x = .error e → E (.raised e) w) : wp (fromExcept x) w Q E := by
  cases x with
  | ok a => exact hq a rfl
  | error e => exact he e rfl

/-- A write happens as a whole, or the process stops before it. -/
theorem wp_write {w : World D} {f : Ledger D → Ledger D} {Q : Unit → World D → Prop}
    {E : Stop → World D → Prop}
    (hq : ∀ t, t.ledger = f w.ledger → Frame w t → t.manifestFirst = w.manifestFirst → Q () t)
    (he : w.steps ≠ none → E .crashed w) : wp (write f) w Q E := by
  unfold write
  rw [wp_bind, wp_get]
  cases hs : w.steps with
  | none => exact hq _ rfl ⟨fun _ => rfl, fun h => h, rfl⟩ rfl
  | some n =>
    cases n with
    | zero => exact he (by simp [hs])
    | succ n => exact hq _ rfl ⟨fun h => by simp [hs] at h, fun h => h, rfl⟩ rfl

theorem wp_shouldDefer {w : World D} {Q : Bool → World D → Prop} {E : Stop → World D → Prop}
    (hq : ∀ answer t, t.ledger = w.ledger → Frame w t → (w.defers = [] → answer = false) →
      Q answer t) : wp shouldDefer w Q E := by
  unfold shouldDefer
  rw [wp_bind, wp_get]
  cases hd : w.defers with
  | nil => exact hq false w rfl (.refl w) (fun _ => rfl)
  | cons answer rest =>
    exact hq answer _ rfl ⟨fun h => h, fun h => by simp [hd] at h, rfl⟩ (fun h => by simp [hd] at h)

theorem audioSha256_retire (c : Prop) [Decidable c] (e : Entry D) :
    (if c then Entry.retire e else e).audioSha256 = e.audioSha256 := by
  split <;> rfl

theorem retire_retired {e : Entry D} (h : e.state ≠ .ready) : Entry.retire e = e := by
  cases e with
  | mk r st =>
    cases st with
    | ready => exact absurd rfl h
    | retired => rfl

variable [DecidableEq D]

/-- Ready entries have their proof and their complete directory, and nothing else is visible
except what is left of retired artifacts. -/
structure Agree (l : Ledger D) : Prop where
  proofs : ∀ id, l.HasActiveProof id ↔ l.IsReady id
  proved : ∀ id e p, l.entries.get id = some e → e.state = .ready → l.proofs.get id = some p →
    v2ActiveProof p e = .ok ()
  ready : ∀ id e, l.entries.get id = some e → e.state = .ready →
    l.directories.get id = some ⟨some e.audioSha256, some e.manifestSha256, false⟩
  known : ∀ id d, l.directories.get id = some d →
    d.foreign = false ∧ ∃ e, l.entries.get id = some e

/-- No directory of a retired artifact is left. -/
def Clean (l : Ledger D) : Prop := ∀ id, l.IsRetired id → l.directories.get id = none

/-- Only files of artifacts that are not ready were removed. -/
structure Cleared (l l' : Ledger D) : Prop where
  same : l' = { l with directories := l'.directories }
  kept : ∀ id, l.IsReady id → l'.directories.get id = l.directories.get id
  shrinks : ∀ id d', l'.directories.get id = some d' →
    ∃ d, l.directories.get id = some d ∧ (d.foreign = false → d'.foreign = false)

/-- Exactly the artifacts in `done` were retired between two ledgers. -/
structure Progress (l l' : Ledger D) (done : List D) : Prop where
  legacy : l'.legacy = l.legacy
  readyFrontier : l'.readyFrontier = l.readyFrontier
  v2Frontier : l'.v2Frontier = l.v2Frontier
  nextPublicOrder : l'.nextPublicOrder = l.nextPublicOrder
  entries : ∀ id, l'.entries.get id =
    (l.entries.get id).map fun e => if id ∈ done then Entry.retire e else e
  proofs : ∀ id, l'.proofs.get id = if id ∈ done then none else l.proofs.get id
  kept : ∀ id, l'.IsReady id → l'.directories.get id = l.directories.get id
  shrinks : ∀ id, l.directories.get id = none → l'.directories.get id = none

theorem isReady_of_entries {l l' : Ledger D} (h : l'.entries = l.entries) (id : D) :
    l'.IsReady id ↔ l.IsReady id := by
  unfold Ledger.IsReady
  rw [h]

theorem Cleared.entries {l l' : Ledger D} (h : Cleared l l') : l'.entries = l.entries := by
  rw [h.same]

theorem Cleared.proofs {l l' : Ledger D} (h : Cleared l l') : l'.proofs = l.proofs := by
  rw [h.same]

theorem Cleared.refl (l : Ledger D) : Cleared l l :=
  ⟨rfl, fun _ _ => rfl, fun _ d hd => ⟨d, hd, fun h => h⟩⟩

theorem Cleared.trans {l m n : Ledger D} (h : Cleared l m) (h' : Cleared m n) : Cleared l n := by
  refine ⟨?_, ?_, ?_⟩
  · rw [h'.same, h.same]
  · intro id hid
    rw [h'.kept id ((isReady_of_entries h.entries id).mpr hid), h.kept id hid]
  · intro id d' hd'
    obtain ⟨d, hd, hforeign⟩ := h'.shrinks id d' hd'
    obtain ⟨d0, hd0, hforeign0⟩ := h.shrinks id d hd
    exact ⟨d0, hd0, fun h => hforeign (hforeign0 h)⟩

theorem Cleared.agree {l l' : Ledger D} (h : Cleared l l') (ha : Agree l) : Agree l' := by
  refine ⟨?_, ?_, ?_, ?_⟩
  · intro id
    unfold Ledger.HasActiveProof
    rw [h.proofs, isReady_of_entries h.entries]
    exact ha.proofs id
  · rw [h.entries, h.proofs]
    exact ha.proved
  · intro id e he hready
    rw [h.entries] at he
    rw [h.kept id ⟨e, he, hready⟩]
    exact ha.ready id e he hready
  · intro id d' hd'
    obtain ⟨d, hd, hforeign⟩ := h.shrinks id d' hd'
    obtain ⟨hd1, hd2⟩ := ha.known id d hd
    exact ⟨hforeign hd1, by rw [h.entries]; exact hd2⟩

theorem Cleared.none {l l' : Ledger D} (h : Cleared l l') {id : D}
    (hn : l.directories.get id = none) : l'.directories.get id = none := by
  cases hd : l'.directories.get id with
  | none => rfl
  | some d' =>
    obtain ⟨d, hd, -⟩ := h.shrinks id d' hd
    rw [hn] at hd
    cases hd

theorem Cleared.progress {l l' : Ledger D} (h : Cleared l l') : Progress l l' [] := by
  refine ⟨by rw [h.same], by rw [h.same], by rw [h.same], by rw [h.same], ?_, ?_, ?_, fun _ hn => h.none hn⟩
  · intro id
    rw [h.entries]
    simp
  · intro id
    rw [h.proofs]
    simp
  · intro id hid
    exact h.kept id ((isReady_of_entries h.entries id).mp hid)

theorem Progress.isReady {l l' : Ledger D} {done : List D} (h : Progress l l' done) (id : D) :
    l'.IsReady id ↔ l.IsReady id ∧ id ∉ done := by
  unfold Ledger.IsReady
  rw [h.entries id]
  constructor
  · rintro ⟨e, he, hready⟩
    obtain ⟨e0, he0, rfl⟩ := Option.map_eq_some_iff.mp he
    by_cases hmem : id ∈ done
    · simp [hmem, Entry.retire] at hready
    · simp only [hmem, if_false] at hready
      exact ⟨⟨e0, he0, hready⟩, hmem⟩
  · rintro ⟨⟨e, he, hready⟩, hmem⟩
    exact ⟨e, by simp [he, hmem], hready⟩

theorem Progress.trans {l m n : Ledger D} {done done' : List D} (h : Progress l m done)
    (h' : Progress m n done') : Progress l n (done ++ done') := by
  refine ⟨h'.legacy.trans h.legacy, h'.readyFrontier.trans h.readyFrontier,
    h'.v2Frontier.trans h.v2Frontier, h'.nextPublicOrder.trans h.nextPublicOrder, ?_, ?_, ?_,
    fun id hn => h'.shrinks id (h.shrinks id hn)⟩
  · intro id
    rw [h'.entries, h.entries, Option.map_map]
    congr 1
    funext e
    by_cases h1 : id ∈ done <;> by_cases h2 : id ∈ done' <;> simp [h1, h2, Entry.retire]
  · intro id
    rw [h'.proofs, h.proofs]
    by_cases h1 : id ∈ done <;> by_cases h2 : id ∈ done' <;> simp [h1, h2]
  · intro id hid
    rw [h'.kept id hid]
    exact h.kept id ((h'.isReady id).mp hid).1

/-- The transaction that retires one ready artifact. -/
theorem progress_retire {l : Ledger D} (id : D) {e : Entry D} (he : l.entries.get id = some e) :
    Progress l { l with entries := l.entries.put id (Entry.retire e)
                        proofs := l.proofs.delete id } [id] := by
  refine ⟨rfl, rfl, rfl, rfl, ?_, ?_, fun _ _ => rfl, fun _ hn => hn⟩
  · intro k
    rw [Table.get_put]
    by_cases hk : k = id
    · subst hk
      simp [he]
    · simp [hk]
  · intro k
    rw [Table.get_delete]
    by_cases hk : k = id <;> simp [hk]

theorem agree_retire {l : Ledger D} (ha : Agree l) {id : D} {e : Entry D}
    (he : l.entries.get id = some e) :
    Agree { l with entries := l.entries.put id (Entry.retire e), proofs := l.proofs.delete id } := by
  have hp := progress_retire id he
  have hnot : ∀ {k}, k ∉ [id] ↔ k ≠ id := by simp
  refine ⟨?_, ?_, ?_, ?_⟩
  · intro k
    rw [hp.isReady, hnot]
    unfold Ledger.HasActiveProof
    rw [hp.proofs]
    by_cases hk : k = id
    · simp [hk]
    · simp only [List.mem_singleton, hk, if_false, ne_eq, not_false_eq_true, and_true]
      exact ha.proofs k
  · intro k e' p' he' hready hp'
    obtain ⟨-, hk⟩ := (hp.isReady k).mp ⟨e', he', hready⟩
    rw [hp.entries] at he'
    rw [hp.proofs] at hp'
    simp only [hk, if_false, Option.map_id_fun', id_eq] at he' hp'
    exact ha.proved k e' p' he' hready hp'
  · intro k e' he' hready
    obtain ⟨-, hk⟩ := (hp.isReady k).mp ⟨e', he', hready⟩
    rw [hp.entries] at he'
    simp only [hk, if_false, Option.map_id_fun', id_eq] at he'
    exact ha.ready k e' he' hready
  · intro k d hd
    obtain ⟨hforeign, e', he'⟩ := ha.known k d hd
    refine ⟨hforeign, ?_⟩
    rw [hp.entries, he']
    exact ⟨_, rfl⟩

section Steps

variable {w : World D}

theorem cleared_unlink {l : Ledger D} {id : D} (hid : ¬ l.IsReady id) (item : Item) :
    Cleared l { l with directories := l.directories.adjust id (item.remove ·) } := by
  refine ⟨rfl, ?_, ?_⟩
  · intro k hk
    have : k ≠ id := fun h => hid (h ▸ hk)
    simp [Table.get_adjust, this]
  · intro k d' hd'
    rw [Table.get_adjust] at hd'
    by_cases hk : k = id
    · rw [if_pos hk] at hd'
      obtain ⟨d, hd, rfl⟩ := Option.map_eq_some_iff.mp hd'
      exact ⟨d, hd, fun h => by cases item <;> exact h⟩
    · rw [if_neg hk] at hd'
      exact ⟨d', hd', fun h => h⟩

theorem cleared_rmdir {l : Ledger D} {id : D} (hid : ¬ l.IsReady id) :
    Cleared l { l with directories := l.directories.delete id } := by
  refine ⟨rfl, ?_, ?_⟩
  · intro k hk
    have : k ≠ id := fun h => hid (h ▸ hk)
    simp [Table.get_delete, this]
  · intro k d' hd'
    rw [Table.get_delete] at hd'
    by_cases hk : k = id
    · simp [hk] at hd'
    · rw [if_neg hk] at hd'
      exact ⟨d', hd', fun h => h⟩

/-- What an interrupted removal leaves: only files of artifacts that are not ready are gone. -/
def Interrupted (w : World D) (e : Stop) (t : World D) : Prop :=
  e = .crashed ∧ w.steps ≠ none ∧ Cleared w.ledger t.ledger ∧ Frame w t

theorem Interrupted.of_later {w t u : World D} {e : Stop} (hc : Cleared w.ledger t.ledger)
    (hf : Frame w t) (h : Interrupted t e u) : Interrupted w e u :=
  ⟨h.1, fun hs => h.2.1 (hf.steps hs), hc.trans h.2.2.1, hf.trans h.2.2.2⟩

theorem wp_unlink {id : D} (hid : ¬ w.ledger.IsReady id) (d : Directory D) (item : Item) :
    wp (unlink id d item) w (fun _ t => Cleared w.ledger t.ledger ∧ Frame w t)
      (Interrupted w) := by
  unfold unlink
  split
  · apply wp_write
    · intro t ht hf _
      rw [ht]
      exact ⟨cleared_unlink hid item, hf⟩
    · exact fun hs => ⟨rfl, hs, .refl _, .refl _⟩
  · exact ⟨.refl _, .refl _⟩

theorem not_isReady_of_cleared {l l' : Ledger D} (h : Cleared l l') {id : D}
    (hid : ¬ l.IsReady id) : ¬ l'.IsReady id := by
  rwa [isReady_of_entries h.entries]

/-- Removing an artifact that is not ready cannot fail, only be interrupted. -/
theorem wp_removeV2Artifact {id : D} (ha : Agree w.ledger) (hid : ¬ w.ledger.IsReady id) :
    wp (removeV2Artifact id) w
      (fun _ t => Cleared w.ledger t.ledger ∧ t.ledger.directories.get id = none ∧ Frame w t)
      (Interrupted w) := by
  unfold removeV2Artifact
  rw [wp_bind, wp_get]
  cases hd : w.ledger.directories.get id with
  | none => exact ⟨.refl _, hd, .refl _⟩
  | some d =>
    simp only [wp_bind, wp_refuseIf]
    refine ⟨fun hforeign => ?_, fun _ => ?_⟩
    · have := (ha.known id d hd).1
      rw [this] at hforeign
      cases hforeign
    · refine wp_mono (wp_unlink hid d _) ?_ (fun _ _ h => h)
      rintro _ t ⟨hct, hft⟩
      have hidt := not_isReady_of_cleared hct hid
      refine wp_mono (wp_unlink hidt d _) ?_ (fun _ _ h => h.of_later hct hft)
      rintro _ u ⟨hcu, hfu⟩
      have hidu := not_isReady_of_cleared hcu hidt
      apply wp_write
      · intro v hv hfv _
        refine ⟨?_, by rw [hv]; simp, (hft.trans hfu).trans hfv⟩
        rw [hv]
        exact (hct.trans hcu).trans (cleared_rmdir hidu)
      · intro hs
        exact ⟨rfl, fun h => hs (hfu.steps (hft.steps h)), hct.trans hcu, hft.trans hfu⟩

theorem wp_removeRetired {rows : List (D × Entry D)} (ha : Agree w.ledger)
    (hrows : ∀ r ∈ rows, r.2.state = .retired → ¬ w.ledger.IsReady r.1) :
    wp (removeRetired rows) w
      (fun _ t => Cleared w.ledger t.ledger ∧ Frame w t ∧
        ∀ r ∈ rows, r.2.state = .retired → t.ledger.directories.get r.1 = none)
      (Interrupted w) := by
  induction rows generalizing w with
  | nil => exact ⟨.refl _, .refl _, by simp⟩
  | cons r rows ih =>
    obtain ⟨id, entry⟩ := r
    unfold removeRetired
    split
    · rename_i hretired
      have hid := hrows (id, entry) (by simp) hretired
      rw [wp_bind]
      refine wp_mono (wp_removeV2Artifact ha hid) ?_ (fun _ _ h => h)
      rintro _ t ⟨hct, hgone, hft⟩
      have hrows' : ∀ r ∈ rows, r.2.state = .retired → ¬ t.ledger.IsReady r.1 := by
        intro r hr hst
        exact not_isReady_of_cleared hct (hrows r (List.mem_cons_of_mem _ hr) hst)
      refine wp_mono (ih (hct.agree ha) hrows') ?_ (fun _ _ h => h.of_later hct hft)
      rintro _ u ⟨hcu, hfu, hall⟩
      refine ⟨hct.trans hcu, hft.trans hfu, ?_⟩
      intro r hr hst
      rcases List.mem_cons.mp hr with rfl | hr
      · exact hcu.none hgone
      · exact hall r hr hst
    · rename_i hready
      refine wp_mono (ih ha (fun r hr => hrows r (List.mem_cons_of_mem _ hr))) ?_
        (fun _ _ h => h)
      rintro _ t ⟨hct, hft, hall⟩
      refine ⟨hct, hft, ?_⟩
      intro r hr hst
      rcases List.mem_cons.mp hr with rfl | hr
      · exact absurd hst hready
      · exact hall r hr hst

theorem wp_resumeRetiredPublicAudioV2 (ha : Agree w.ledger) :
    wp resumeRetiredPublicAudioV2 w
      (fun _ t => Cleared w.ledger t.ledger ∧ Frame w t ∧ Clean t.ledger) (Interrupted w) := by
  unfold resumeRetiredPublicAudioV2
  rw [wp_bind, wp_get]
  refine wp_mono (wp_removeRetired ha ?_) ?_ (fun _ _ h => h)
  · rintro ⟨id, e⟩ hr hretired ⟨e', he', hready⟩
    have := Table.get_eq_some.mpr hr
    rw [this] at he'
    obtain rfl := Option.some.inj he'
    rw [hready] at hretired
    cases hretired
  · rintro _ t ⟨hct, hft, hall⟩
    refine ⟨hct, hft, ?_⟩
    rintro id ⟨e, he, hretired⟩
    rw [hct.entries] at he
    exact hall (id, e) (Table.get_eq_some.mp he) hretired

/-- The listed artifacts that are still ready, in list order. -/
def pending (l : Ledger D) (acknowledged : List (D × D)) : List D :=
  (acknowledged.map Prod.fst).filter fun id => (l.entries.get id).any (·.state = .ready)

/-- Every listed pair names a published v2 artifact by its audio digest, once. -/
def Listed (l : Ledger D) (acknowledged : List (D × D)) : Prop :=
  (acknowledged.map Prod.fst).Nodup ∧
    ∀ pair ∈ acknowledged, ∃ e, l.entries.get pair.1 = some e ∧ e.audioSha256 = pair.2

theorem mem_pending {l : Ledger D} {acknowledged : List (D × D)} {id : D} :
    id ∈ pending l acknowledged ↔ id ∈ acknowledged.map Prod.fst ∧ l.IsReady id := by
  unfold pending Ledger.IsReady
  rw [List.mem_filter, Option.any_eq_true]
  simp only [decide_eq_true_eq]

theorem metadata_ok {l : Ledger D} {seen : List D} {acknowledged : List (D × D)} {b : Bool}
    (h : requireV2AcknowledgementMetadata l seen acknowledged = .ok b) :
    Listed l acknowledged ∧ (∀ pair ∈ acknowledged, pair.1 ∉ seen) ∧
      (b = false → pending l acknowledged = []) := by
  induction acknowledged generalizing seen b with
  | nil => exact ⟨⟨by simp, by simp⟩, by simp, fun _ => rfl⟩
  | cons pair rest ih =>
    obtain ⟨id, audio⟩ := pair
    unfold requireV2AcknowledgementMetadata at h
    split at h
    · simp at h
    · rename_i hseen
      split at h
      · simp at h
      · rename_i entry hentry
        split at h
        · simp at h
        · rename_i haudio
          cases hrest : requireV2AcknowledgementMetadata l (id :: seen) rest with
          | error e => simp [hrest, bind, Except.bind] at h
          | ok needs =>
            obtain ⟨⟨hnodup, hall⟩, hfresh, hnone⟩ := ih hrest
            have hb : (decide (entry.state = .ready) || needs) = b := by
              simpa [hrest, bind, Except.bind, pure, Except.pure] using h
            refine ⟨⟨?_, ?_⟩, ?_, ?_⟩
            · rw [List.map_cons, List.nodup_cons]
              refine ⟨?_, hnodup⟩
              intro hmem
              obtain ⟨q, hq, hqid⟩ := List.mem_map.mp hmem
              exact hfresh q hq (by simp [hqid])
            · intro q hq
              rcases List.mem_cons.mp hq with rfl | hq
              · exact ⟨entry, hentry, not_not.mp haudio⟩
              · exact hall q hq
            · intro q hq
              rcases List.mem_cons.mp hq with rfl | hq
              · exact hseen
              · exact fun hmem => hfresh q hq (List.mem_cons_of_mem _ hmem)
            · intro hfalse
              rw [hfalse, Bool.or_eq_false_iff] at hb
              have hstate : ¬ entry.state = .ready := by simpa using hb.1
              have := hnone hb.2
              unfold pending at this ⊢
              simp [hentry, hstate, this]

theorem metadata_of_listed {l : Ledger D} {seen : List D} {acknowledged : List (D × D)}
    (h : Listed l acknowledged) (hseen : ∀ pair ∈ acknowledged, pair.1 ∉ seen) :
    ∃ b, requireV2AcknowledgementMetadata l seen acknowledged = .ok b := by
  induction acknowledged generalizing seen with
  | nil => exact ⟨false, rfl⟩
  | cons pair rest ih =>
    obtain ⟨id, audio⟩ := pair
    obtain ⟨hnodup, hall⟩ := h
    rw [List.map_cons, List.nodup_cons] at hnodup
    obtain ⟨entry, hentry, haudio⟩ := hall (id, audio) (by simp)
    have hfresh : ∀ q ∈ rest, q.1 ∉ id :: seen := by
      intro q hq hmem
      rcases List.mem_cons.mp hmem with hqid | hmem
      · exact hnodup.1 (List.mem_map.mpr ⟨q, hq, hqid⟩)
      · exact hseen q (List.mem_cons_of_mem _ hq) hmem
    obtain ⟨needs, hrest⟩ := ih ⟨hnodup.2, fun q hq => hall q (List.mem_cons_of_mem _ hq)⟩ hfresh
    refine ⟨decide (entry.state = .ready) || needs, ?_⟩
    unfold requireV2AcknowledgementMetadata
    simp only [hseen (id, audio) (by simp), if_false, hentry, ne_eq, haudio, not_true_eq_false,
      hrest]
    rfl

theorem forM_ok {α : Type} {f : α → Except String Unit} {items : List α}
    (h : ∀ a ∈ items, f a = .ok ()) : items.forM f = .ok () := by
  induction items with
  | nil => rfl
  | cons a items ih =>
    have htail := ih (fun b hb => h b (List.mem_cons_of_mem _ hb))
    change (f a >>= fun _ => items.forM f) = .ok ()
    rw [h a (by simp)]
    exact htail

/-- With agreement and no remains, the custody loader accepts the ledger. -/
theorem custody_ok {l : Ledger D} (ha : Agree l) (hc : Clean l) : v2ReadyCustody l none = .ok () := by
  have hvisible : ∀ id, id ∈ l.directories.keys ↔ l.IsReady id := by
    intro id
    rw [Table.mem_keys]
    constructor
    · rintro ⟨d, hd⟩
      obtain ⟨-, e, he⟩ := ha.known id d hd
      cases hst : e.state with
      | ready => exact ⟨e, he, hst⟩
      | retired =>
        have := hc id ⟨e, he, hst⟩
        rw [hd] at this
        cases this
    · rintro ⟨e, he, hready⟩
      exact ⟨_, ha.ready id e he hready⟩
  have hdirs : (∀ id ∈ l.directories.keys.filter (fun id => some id ≠ none), id ∈ l.readyIds) ∧
      (∀ id ∈ l.readyIds, id ∈ l.directories.keys.filter (fun id => some id ≠ none)) := by
    constructor
    · intro id hid
      exact mem_readyIds.mpr ((hvisible id).mp (List.mem_filter.mp hid).1)
    · intro id hid
      exact List.mem_filter.mpr ⟨(hvisible id).mpr (mem_readyIds.mp hid), by simp⟩
  have hproofs : (∀ id ∈ l.activeProofIds, id ∈ l.readyIds) ∧
      (∀ id ∈ l.readyIds, id ∈ l.activeProofIds) := by
    constructor
    · intro id hid
      exact mem_readyIds.mpr ((ha.proofs id).mp (mem_activeProofIds.mp hid))
    · intro id hid
      exact mem_activeProofIds.mpr ((ha.proofs id).mpr (mem_readyIds.mp hid))
  have hrow : ∀ r ∈ l.entries.rows.filter (fun r => r.2.state = .ready),
      l.entries.get r.1 = some r.2 ∧ r.2.state = .ready := by
    intro r hr
    obtain ⟨hr, hready⟩ := List.mem_filter.mp hr
    exact ⟨Table.get_eq_some.mpr hr, by simpa using hready⟩
  unfold v2ReadyCustody
  dsimp only
  rw [if_pos hdirs, forM_ok, if_pos hproofs]
  · apply forM_ok
    intro r hr
    obtain ⟨he, hready⟩ := hrow r hr
    obtain ⟨p, hp, -⟩ := (ha.proofs r.1).mpr ⟨r.2, he, hready⟩
    simp only [hp]
    exact ha.proved r.1 r.2 p he hready hp
  · intro r hr
    obtain ⟨he, hready⟩ := hrow r hr
    simp only [ha.ready r.1 r.2 he hready, readV2ReadySource]
    simp

theorem acknowledgements_ok {l : Ledger D} {acknowledged : List (D × D)} (ha : Agree l)
    (h : Listed l acknowledged) : requireV2Acknowledgements l acknowledged = .ok () := by
  have hnone : ∀ pair ∈ acknowledged, pair.1 ∉ ([] : List D) := by simp
  obtain ⟨b, hb⟩ := metadata_of_listed h hnone
  unfold requireV2Acknowledgements
  rw [hb]
  apply forM_ok
  intro pair hpair
  obtain ⟨e, he, -⟩ := h.2 pair hpair
  simp only [he]
  rw [if_neg]
  rintro ⟨hready, hproof⟩
  exact hproof (mem_activeProofIds.mpr ((ha.proofs pair.1).mpr ⟨e, he, hready⟩))

theorem Progress.listed {l l' : Ledger D} {done : List D} {acknowledged : List (D × D)}
    (h : Progress l l' done) : Listed l' acknowledged ↔ Listed l acknowledged := by
  unfold Listed
  apply and_congr_right
  intro _
  apply forall₂_congr
  intro pair _
  rw [h.entries]
  constructor
  · rintro ⟨e, he, haudio⟩
    obtain ⟨e0, he0, rfl⟩ := Option.map_eq_some_iff.mp he
    exact ⟨e0, he0, (audioSha256_retire _ e0).symm.trans haudio⟩
  · rintro ⟨e, he, haudio⟩
    rw [he]
    exact ⟨_, rfl, (audioSha256_retire _ e).trans haudio⟩

theorem pending_cons {l : Ledger D} {id audio : D} {rest : List (D × D)} :
    pending l ((id, audio) :: rest) =
      if (l.entries.get id).any (·.state = .ready) then id :: pending l rest
      else pending l rest := by
  unfold pending
  rw [List.map_cons, List.filter_cons]

/-- Retiring one artifact leaves the others as pending as they were. -/
theorem pending_progress {l l' : Ledger D} {done : List D} (h : Progress l l' done)
    {rest : List (D × D)} (hrest : ∀ pair ∈ rest, pair.1 ∉ done) :
    pending l' rest = pending l rest := by
  unfold pending
  apply List.filter_congr
  intro id hid
  obtain ⟨pair, hpair, rfl⟩ := List.mem_map.mp hid
  rw [h.entries]
  have := hrest pair hpair
  cases l.entries.get pair.1 <;> simp [this]

/-- Where a call stopped: some initial part of the pending list is retired. -/
structure Reached (w : World D) (acknowledged : List (D × D)) (done : List D) (t : World D) :
    Prop where
  initial : done <+: pending w.ledger acknowledged
  progress : Progress w.ledger t.ledger done
  agree : Agree t.ledger
  frame : Frame w t

/-- The retirement loop retires an initial part of the pending list, all of it unless deferred. -/
theorem wp_retireEach {entries : Table D (Entry D)} {acknowledged : List (D × D)}
    (ha : Agree w.ledger) (hc : Clean w.ledger) (hl : Listed w.ledger acknowledged)
    (hsnap : ∀ pair ∈ acknowledged, entries.get pair.1 = w.ledger.entries.get pair.1) :
    wp (retireEach entries acknowledged) w
      (fun done t => Reached w acknowledged done t ∧ Clean t.ledger ∧
        (w.defers = [] → done = pending w.ledger acknowledged))
      (fun e t => e = .crashed ∧ w.steps ≠ none ∧ ∃ done, Reached w acknowledged done t) := by
  induction acknowledged generalizing w with
  | nil =>
    exact ⟨⟨List.prefix_rfl, (Cleared.refl _).progress, ha, .refl _⟩, hc, fun _ => rfl⟩
  | cons pair rest ih =>
    obtain ⟨id, audio⟩ := pair
    obtain ⟨hnodup, hall⟩ := hl
    rw [List.map_cons, List.nodup_cons] at hnodup
    obtain ⟨entry, hentry, -⟩ := hall (id, audio) (by simp)
    have hlrest : Listed w.ledger rest :=
      ⟨hnodup.2, fun q hq => hall q (List.mem_cons_of_mem _ hq)⟩
    have hsnapid : entries.get id = some entry := (hsnap (id, audio) (by simp)).trans hentry
    unfold retireEach
    simp only [hsnapid]
    split
    · rename_i hretired
      have hpend : pending w.ledger ((id, audio) :: rest) = pending w.ledger rest := by
        rw [pending_cons]
        simp [hentry, hretired]
      refine wp_mono (ih ha hc hlrest (fun q hq => hsnap q (List.mem_cons_of_mem _ hq))) ?_ ?_
      · rintro done t ⟨hr, hclean, hfull⟩
        exact ⟨⟨hpend ▸ hr.initial, hr.progress, hr.agree, hr.frame⟩, hclean, hpend ▸ hfull⟩
      · rintro e t ⟨he, hs, done, hr⟩
        exact ⟨he, hs, done, hpend ▸ hr.initial, hr.progress, hr.agree, hr.frame⟩
    · rename_i hready
      have hstate : entry.state = .ready := by
        cases hst : entry.state with
        | ready => rfl
        | retired => exact absurd hst hready
      have hpend : pending w.ledger ((id, audio) :: rest) = id :: pending w.ledger rest := by
        rw [pending_cons]
        simp [hentry, hstate]
      have hrestid : ∀ q ∈ rest, q.1 ∉ [id] := by
        intro q hq hmem
        have hqid : q.1 = id := by simpa using hmem
        exact hnodup.1 (List.mem_map.mpr ⟨q, hq, hqid⟩)
      have hfirst : [id] <+: pending w.ledger ((id, audio) :: rest) := by
        rw [hpend]
        exact ⟨_, rfl⟩
      unfold recordV2Retirement
      simp only [wp_bind, wp_get, wp_refuseIf]
      refine ⟨fun h => absurd hentry h, fun _ => ⟨fun h => ?_, fun _ => ?_⟩⟩
      · obtain ⟨p, hp, hactive⟩ := (ha.proofs id).mpr ⟨entry, hentry, hstate⟩
        simp [hp, hactive] at h
      apply wp_write
      · intro t ht hft _
        have hprog := progress_retire id hentry
        rw [← ht] at hprog
        have hat : Agree t.ledger := ht ▸ agree_retire ha hentry
        have hnr : ¬ t.ledger.IsReady id := fun h => ((hprog.isReady id).mp h).2 (by simp)
        refine wp_mono (wp_removeV2Artifact hat hnr) ?_ ?_
        · rintro _ u ⟨hcu, hgone, hfu⟩
          have hprogu := hprog.trans hcu.progress
          rw [List.append_nil] at hprogu
          have hau := hcu.agree hat
          -- Everything retired before this artifact was clean, and its own directory is gone.
          have hcleanu : Clean u.ledger := by
            rintro k ⟨e, he, hretired⟩
            by_cases hk : k = id
            · rw [hk]
              exact hgone
            · apply hprogu.shrinks
              apply hc
              rw [hprogu.entries] at he
              obtain ⟨e0, he0, rfl⟩ := Option.map_eq_some_iff.mp he
              refine ⟨e0, he0, ?_⟩
              simpa [hk] using hretired
          apply wp_shouldDefer
          intro answer v hv hfv hanswer
          have hframe := (hft.trans hfu).trans hfv
          have hone : Reached w ((id, audio) :: rest) [id] v :=
            ⟨hfirst, hv ▸ hprogu, hv ▸ hau, hframe⟩
          split
          · rename_i htrue
            refine ⟨hone, hv ▸ hcleanu, fun hd => ?_⟩
            have := hanswer (hfu.defers (hft.defers hd))
            rw [this] at htrue
            cases htrue
          · have hl' : Listed v.ledger rest := by
              rw [hv]
              exact hprogu.listed.mpr hlrest
            have hsnap' : ∀ q ∈ rest, entries.get q.1 = v.ledger.entries.get q.1 := by
              intro q hq
              rw [hsnap q (List.mem_cons_of_mem _ hq), hv, hprogu.entries]
              simp [show q.1 ≠ id by simpa using hrestid q hq]
            have hpendv : pending v.ledger rest = pending w.ledger rest := by
              rw [hv]
              exact pending_progress hprogu hrestid
            have hjoin : ∀ {done : List D} {x : World D}, Reached v rest done x →
                Reached w ((id, audio) :: rest) (id :: done) x := by
              intro done x hr
              refine ⟨?_, ?_, hr.agree, hframe.trans hr.frame⟩
              · rw [hpend, ← hpendv]
                exact List.cons_prefix_cons.mpr ⟨rfl, hr.initial⟩
              · have := hprogu.trans (hv ▸ hr.progress)
                exact this
            rw [wp_bind]
            refine wp_mono (ih (hv ▸ hau) (hv ▸ hcleanu) hl' hsnap') ?_ ?_
            · rintro done x ⟨hr, hclean, hfull⟩
              refine ⟨hjoin hr, hclean, fun hd => ?_⟩
              rw [hfull (hframe.defers hd), hpendv, hpend]
            · rintro e x ⟨he, hs, done, hr⟩
              exact ⟨he, fun h => hs (hframe.steps h), id :: done, hjoin hr⟩
        · rintro e u ⟨he, hs, hcu, hfu⟩
          refine ⟨he, fun h => hs (hft.steps h), [id], hfirst, ?_, hcu.agree hat, hft.trans hfu⟩
          have := hprog.trans hcu.progress
          rwa [List.append_nil] at this
      · intro hs
        exact ⟨rfl, hs, [], List.nil_prefix, (Cleared.refl _).progress, ha, .refl _⟩

theorem Cleared.clean {l l' : Ledger D} (h : Cleared l l') (hc : Clean l) : Clean l' := by
  rintro id ⟨e, he, hretired⟩
  rw [h.entries] at he
  exact h.none (hc id ⟨e, he, hretired⟩)

theorem Cleared.listed {l l' : Ledger D} {acknowledged : List (D × D)} (h : Cleared l l') :
    Listed l' acknowledged ↔ Listed l acknowledged := h.progress.listed

theorem Cleared.pending {l l' : Ledger D} {acknowledged : List (D × D)} (h : Cleared l l') :
    pending l' acknowledged = pending l acknowledged :=
  pending_progress h.progress (by simp)

/-- The checks before retirement remove at most remains, and refuse only an unusable list. -/
theorem wp_preflightV2AckRetirement {acknowledged : List (D × D)} (ha : Agree w.ledger) :
    wp (preflightV2AckRetirement acknowledged) w
      (fun entries t => Cleared w.ledger t.ledger ∧ Frame w t ∧
        (entries = none → w.defers = [] → pending w.ledger acknowledged = []) ∧
        (∀ snapshot, entries = some snapshot →
          Listed w.ledger acknowledged ∧ snapshot = t.ledger.entries))
      (fun _ t => Cleared w.ledger t.ledger ∧ Frame w t ∧
        (w.steps = none → ¬ Listed w.ledger acknowledged)) := by
  have hstay : ∀ t : World D, t.ledger = w.ledger → Cleared w.ledger t.ledger := by
    intro t ht
    rw [ht]
    exact .refl _
  unfold preflightV2AckRetirement
  split
  · rename_i hnil
    refine ⟨.refl _, .refl _, fun _ _ => ?_, by simp⟩
    rw [hnil]
    rfl
  · simp only [wp_bind, wp_get]
    apply wp_fromExcept
    · intro needs hneeds
      obtain ⟨hlisted, -, hnone⟩ := metadata_ok hneeds
      rw [wp_ite]
      refine ⟨fun hfalse => ⟨.refl _, .refl _, fun _ _ => hnone hfalse, by simp⟩, fun _ => ?_⟩
      rw [wp_bind]
      apply wp_shouldDefer
      intro answer t ht hft hanswer
      have hat : Agree t.ledger := ht ▸ ha
      split
      · rename_i htrue
        refine ⟨hstay t ht, hft, fun _ hd => ?_, by simp⟩
        rw [hanswer hd] at htrue
        cases htrue
      · rw [wp_bind]
        refine wp_mono (wp_resumeRetiredPublicAudioV2 hat) ?_ ?_
        · rintro _ u ⟨hcu, hfu, hclean⟩
          rw [ht] at hcu
          have hau := hcu.agree ha
          have hframe := hft.trans hfu
          rw [wp_bind]
          apply wp_shouldDefer
          intro answer' v hv hfv hanswer'
          have hcv : Cleared w.ledger v.ledger := hv ▸ hcu
          split
          · rename_i htrue
            refine ⟨hcv, hframe.trans hfv, fun _ hd => ?_, by simp⟩
            rw [hanswer' (hframe.defers hd)] at htrue
            cases htrue
          · have hlv : Listed v.ledger acknowledged := hcv.listed.mpr hlisted
            have hok : v2ReadyCustody v.ledger none = .ok () := hv ▸ custody_ok hau hclean
            simp only [wp_bind, wp_get]
            rw [hok, acknowledgements_ok (hv ▸ hau) hlv]
            refine ⟨hcv, hframe.trans hfv, by simp, ?_⟩
            rintro _ ⟨⟩
            exact ⟨hlisted, rfl⟩
        · rintro e u ⟨-, hs, hcu, hfu⟩
          rw [ht] at hcu
          exact ⟨hcu, hft.trans hfu, fun h => absurd (hft.steps h) hs⟩
    · intro e he
      refine ⟨.refl _, .refl _, fun _ hlisted => ?_⟩
      have hnone : ∀ pair ∈ acknowledged, pair.1 ∉ ([] : List D) := by simp
      obtain ⟨b, hb⟩ := metadata_of_listed hlisted hnone
      rw [he] at hb
      cases hb

/-- The list a call would retire: the checkpoint parses and every pair is acceptable. -/
def Usable (checkpoint : Checkpoint D) (l : Ledger D) (acknowledged : List (D × D)) : Prop :=
  acknowledgedPublicAudioV2 checkpoint = .ok acknowledged ∧ Listed l acknowledged

/-- However a call ends, it retired an initial part of a usable list, or nothing. -/
def Safe (c : Call D) (l l' : Ledger D) : Prop :=
  Agree l' ∧ ∃ done, Progress l l' done ∧
    (done = [] ∨ ∃ acknowledged, Usable c.reread l acknowledged ∧ done <+: pending l acknowledged)

theorem Cleared.safe {l l' : Ledger D} (c : Call D) (h : Cleared l l') (ha : Agree l) :
    Safe c l l' :=
  ⟨h.agree ha, [], h.progress, .inl rfl⟩

theorem usable_cleared {checkpoint : Checkpoint D} {l l' : Ledger D} {acknowledged : List (D × D)}
    (h : Cleared l l') (hu : Usable checkpoint l acknowledged) :
    Usable checkpoint l' acknowledged := ⟨hu.1, h.listed.mpr hu.2⟩

theorem Safe.after_cleared {c : Call D} {l m n : Ledger D} (h : Safe c m n) (hc : Cleared l m) :
    Safe c l n := by
  obtain ⟨ha, done, hprog, hdone⟩ := h
  refine ⟨ha, done, hc.progress.trans hprog, ?_⟩
  rcases hdone with rfl | ⟨acknowledged, ⟨hparse, hlisted⟩, hpre⟩
  · exact .inl rfl
  · rw [hc.pending] at hpre
    exact .inr ⟨acknowledged, ⟨hparse, hc.listed.mp hlisted⟩, hpre⟩

/-- Nothing interrupts or defers this call, and the checkpoint does not change under it. -/
structure Undisturbed (c : Call D) : Prop where
  steps : c.steps = none
  defers : c.defers = []
  reread : c.reread = c.checkpoint
  recheck : c.recheck = c.checkpoint
  revision : c.revisionChanged = false

theorem wp_retireAcknowledgedPublicAudioV2 {c : Call D} (ha : Agree w.ledger)
    (hc : Clean w.ledger) :
    wp (retireAcknowledgedPublicAudioV2 c) w
      (fun _ t => Safe c w.ledger t.ledger ∧ Clean t.ledger ∧ Frame w t ∧
        (w.defers = [] → ∀ acknowledged, Usable c.reread w.ledger acknowledged →
          Progress w.ledger t.ledger (pending w.ledger acknowledged)))
      (fun _ t => Safe c w.ledger t.ledger ∧
        (w.steps = none → c.recheck = c.reread → c.revisionChanged = false →
          ∀ acknowledged, ¬ Usable c.reread w.ledger acknowledged)) := by
  have hstay : Safe c w.ledger w.ledger := (Cleared.refl _).safe c ha
  unfold retireAcknowledgedPublicAudioV2
  rw [wp_bind]
  apply wp_fromExcept
  · intro acknowledged hparse
    have huse : ∀ {l : Ledger D} {other}, Usable c.reread l other → other = acknowledged := by
      intro l other h
      exact Except.ok.inj (h.1.symm.trans hparse)
    rw [wp_bind]
    refine wp_mono (wp_preflightV2AckRetirement ha) ?_ ?_
    · rintro entries t ⟨hct, hft, hnone, hsome⟩
      cases entries with
      | none =>
        refine ⟨hct.safe c ha, hct.clean hc, hft, fun hd other hother => ?_⟩
        rw [huse hother, hnone rfl hd]
        exact hct.progress
      | some snapshot =>
        obtain ⟨hlisted, rfl⟩ := hsome snapshot rfl
        simp only [wp_bind, wp_refuseIf]
        refine ⟨fun h => ⟨hct.safe c ha, fun _ _ hrev => by simp [hrev] at h⟩, fun _ => ?_⟩
        apply wp_fromExcept
        · intro again hagain
          refine ⟨fun hne => ⟨hct.safe c ha, fun _ hre _ => ?_⟩, fun _ => ?_⟩
          · rw [hre, hparse] at hagain
            exact absurd (Except.ok.inj hagain).symm hne
          · apply wp_shouldDefer
            intro answer u hu hfu hanswer
            have hcu : Cleared w.ledger u.ledger := hu ▸ hct
            have hframe := hft.trans hfu
            split
            · rename_i htrue
              refine ⟨hcu.safe c ha, hcu.clean hc, hframe, fun hd => ?_⟩
              rw [hanswer (hft.defers hd)] at htrue
              cases htrue
            · have hreach : ∀ {done x}, Reached u acknowledged done x →
                  Progress w.ledger x.ledger done ∧ done <+: pending w.ledger acknowledged := by
                intro done x hr
                refine ⟨hcu.progress.trans hr.progress, ?_⟩
                rw [← hcu.pending]
                exact hr.initial
              have hsnap : ∀ pair ∈ acknowledged,
                  t.ledger.entries.get pair.1 = u.ledger.entries.get pair.1 := by
                intro pair _
                rw [hu]
              refine wp_mono (wp_retireEach (hcu.agree ha) (hcu.clean hc)
                (hcu.listed.mpr hlisted) hsnap) ?_ ?_
              · rintro done x ⟨hr, hclean, hfull⟩
                obtain ⟨hprog, hpre⟩ := hreach hr
                refine ⟨⟨hr.agree, done, hprog, .inr ⟨acknowledged, ⟨hparse, hlisted⟩, hpre⟩⟩, hclean,
                  hframe.trans hr.frame, fun hd other hother => ?_⟩
                rw [huse hother, ← hcu.pending, ← hfull (hframe.defers hd)]
                exact hprog
              · rintro e x ⟨-, hs, done, hr⟩
                obtain ⟨hprog, hpre⟩ := hreach hr
                exact ⟨⟨hr.agree, done, hprog, .inr ⟨acknowledged, ⟨hparse, hlisted⟩, hpre⟩⟩,
                  fun h => absurd (hframe.steps h) hs⟩
        · intro e he
          refine ⟨hct.safe c ha, fun _ hre => ?_⟩
          rw [hre, hparse] at he
          cases he
    · rintro e t ⟨hct, -, hbad⟩
      refine ⟨hct.safe c ha, fun hs _ _ other hother => ?_⟩
      exact hbad hs (huse hother ▸ hother.2)
  · intro e he
    refine ⟨hstay, fun _ _ _ other hother => ?_⟩
    have := hother.1
    rw [he] at this
    cases this

/-- Every artifact retired between two ledgers has lost its directory. -/
def Removed (l l' : Ledger D) : Prop :=
  ∀ id, l.IsReady id → ¬ l'.IsReady id → l'.directories.get id = none

theorem Safe.removed {c : Call D} {l l' : Ledger D} (h : Safe c l l') (hc : Clean l') :
    Removed l l' := by
  rintro id ⟨e, he, -⟩ hnot
  obtain ⟨-, done, hprog, -⟩ := h
  obtain ⟨e', he'⟩ : ∃ e', l'.entries.get id = some e' := by
    rw [hprog.entries, he]
    exact ⟨_, rfl⟩
  cases hst : e'.state with
  | ready => exact absurd ⟨e', he', hst⟩ hnot
  | retired => exact hc id ⟨e', he', hst⟩

/-- A process that has finished its recovery left no remains. -/
def Recovered (flag : Bool) (l : Ledger D) : Prop := flag = true → Clean l

theorem wp_ensureRecovery (ha : Agree w.ledger) (hr : Recovered w.retiredRecoveryDone w.ledger) :
    wp ensureRecovery w
      (fun _ t => Cleared w.ledger t.ledger ∧ Clean t.ledger ∧ t.retiredRecoveryDone = true ∧
        (w.steps = none → t.steps = none) ∧ (w.defers = [] → t.defers = []))
      (fun e t => Interrupted w e t) := by
  unfold ensureRecovery
  rw [wp_bind, wp_get]
  split
  · rename_i hflag
    exact ⟨.refl _, hr hflag, hflag, fun h => h, fun h => h⟩
  · rw [wp_bind]
    refine wp_mono (wp_resumeRetiredPublicAudioV2 ha) ?_ (fun _ _ h => h)
    rintro _ t ⟨hct, hft, hclean⟩
    exact ⟨hct, hclean, rfl, hft.steps, hft.defers⟩

/-- One call from an agreeing ledger, and what an undisturbed call achieves. -/
theorem wp_retireAcknowledgedReady {c : Call D} (ha : Agree w.ledger)
    (hr : Recovered w.retiredRecoveryDone w.ledger) :
    wp (retireAcknowledgedReady c) w
      (fun _ t => Safe c w.ledger t.ledger ∧ Recovered t.retiredRecoveryDone t.ledger ∧
        Removed w.ledger t.ledger ∧ (w.defers = [] → c.reread = c.checkpoint → Clean t.ledger ∧
          ∀ acknowledged, Usable c.reread w.ledger acknowledged →
            Progress w.ledger t.ledger (pending w.ledger acknowledged)))
      (fun e t => Safe c w.ledger t.ledger ∧
        (e ≠ .crashed → Recovered t.retiredRecoveryDone t.ledger) ∧
        (w.steps = none → c.reread = c.checkpoint → c.recheck = c.reread →
          c.revisionChanged = false → ∀ acknowledged, ¬ Usable c.reread w.ledger acknowledged)) := by
  unfold retireAcknowledgedReady
  rw [wp_bind]
  apply wp_shouldDefer
  intro answer t ht hft hanswer
  have hat : Agree t.ledger := ht ▸ ha
  have hrt : Recovered t.retiredRecoveryDone t.ledger := by
    rw [hft.recovery, ht]
    exact hr
  split
  · rename_i htrue
    refine ⟨?_, hrt, ?_, fun hd => ?_⟩
    · rw [ht]
      exact (Cleared.refl _).safe c ha
    · intro id hid hnot
      rw [ht] at hnot
      exact absurd hid hnot
    · rw [hanswer hd] at htrue
      cases htrue
  · rw [wp_bind]
    refine wp_mono (wp_ensureRecovery hat hrt) ?_ ?_
    · rintro _ u ⟨hcu, hclean, hflag, hsteps, hdefers⟩
      rw [ht] at hcu
      have hau := hcu.agree ha
      have hidle : Safe c w.ledger u.ledger := hcu.safe c ha
      have hsu : w.steps = none → u.steps = none := fun h => hsteps (hft.steps h)
      have hdu : w.defers = [] → u.defers = [] := fun h => hdefers (hft.defers h)
      rw [wp_bind]
      apply wp_fromExcept
      · intro acknowledged hparse
        have huse : c.reread = c.checkpoint → ∀ {l : Ledger D} {other},
            Usable c.reread l other → other = acknowledged := by
          intro hre l other h
          have := h.1
          rw [hre, hparse] at this
          exact (Except.ok.inj this).symm
        simp only [wp_bind, wp_get]
        apply wp_fromExcept
        · intro needs hneeds
          obtain ⟨hlisted, -, hnone⟩ := metadata_ok hneeds
          rw [wp_ite]
          constructor
          · intro hfalse
            refine ⟨hidle, fun _ => hclean, hidle.removed hclean,
              fun _ hre => ⟨hclean, fun other hother => ?_⟩⟩
            rw [huse hre hother, ← hcu.pending, hnone hfalse]
            exact hcu.progress
          · intro _
            rw [wp_bind]
            apply wp_shouldDefer
            intro late v hv hfv hlate
            have hcv : Cleared w.ledger v.ledger := hv ▸ hcu
            split
            · rename_i htrue
              refine ⟨hcv.safe c ha, fun _ => hv ▸ hclean, (hcv.safe c ha).removed (hv ▸ hclean),
                fun hd => ?_⟩
              rw [hlate (hdu hd)] at htrue
              cases htrue
            · unfold forgettingRecovery
              rw [wp_tryCatch]
              refine wp_mono (wp_retireAcknowledgedPublicAudioV2 (hv ▸ hau) (hv ▸ hclean)) ?_ ?_
              · rintro _ x ⟨hsafe, hcleanx, -, hfull⟩
                have hsafew := hsafe.after_cleared hcv
                refine ⟨hsafew, fun _ => hcleanx, hsafew.removed hcleanx,
                  fun hd _ => ⟨hcleanx, ?_⟩⟩
                intro other hother
                have := hfull (hfv.defers (hdu hd)) other (usable_cleared hcv hother)
                rw [hcv.pending] at this
                exact hcv.progress.trans this
              · rintro e x ⟨hsafe, hbad⟩
                simp only [wp_bind, wp_modify, wp_throw]
                refine ⟨hsafe.after_cleared hcv, fun _ hflag => Bool.noConfusion hflag, ?_⟩
                intro hs _ hre hrev other hother
                exact hbad (hfv.steps (hsu hs)) hre hrev other (usable_cleared hcv hother)
        · intro e he
          refine ⟨hidle, fun _ _ => hclean, fun _ hre _ _ other hother => ?_⟩
          have hlisted : Listed u.ledger acknowledged := huse hre hother ▸ hcu.listed.mpr hother.2
          have hnone : ∀ pair ∈ acknowledged, pair.1 ∉ ([] : List D) := by simp
          obtain ⟨b, hb⟩ := metadata_of_listed hlisted hnone
          rw [he] at hb
          cases hb
      · intro e he
        refine ⟨hidle, fun _ _ => hclean, fun _ hre _ _ other hother => ?_⟩
        have := hother.1
        rw [hre, he] at this
        cases this
    · rintro e u ⟨he, hs, hcu, -⟩
      rw [ht] at hcu
      exact ⟨hcu.safe c ha, fun hne => absurd he hne, fun h => absurd (hft.steps h) hs⟩

end Steps

/-- The invariant between calls. -/
structure Sound (p : Process D) : Prop where
  agree : Agree p.ledger
  recovered : Recovered p.retiredRecoveryDone p.ledger

/-- The call came back to its caller. -/
def Returns (p : Process D) (c : Call D) : Prop :=
  ∃ retired, (exec (retireAcknowledgedReady c) (p.world c)).1 = .ok retired

/-- One call keeps the invariant and is safe, however it ends. -/
theorem callStep_safe {p : Process D} (h : Sound p) (c : Call D) :
    Sound (callStep p c) ∧ Safe c p.ledger (callStep p c).ledger ∧
      (Returns p c → Removed p.ledger (callStep p c).ledger) := by
  have hwp := wp_retireAcknowledgedReady (w := p.world c) (c := c) h.agree h.recovered
  unfold wp at hwp
  unfold callStep Returns
  cases hx : exec (retireAcknowledgedReady c) (p.world c) with
  | mk r t =>
    rw [hx] at hwp
    cases r with
    | ok retired =>
      obtain ⟨hsafe, hrec, hremoved, -⟩ := hwp
      exact ⟨⟨hsafe.1, hrec⟩, hsafe, fun _ => hremoved⟩
    | error e =>
      obtain ⟨hsafe, hrec, -⟩ := hwp
      cases e with
      | crashed => exact ⟨⟨hsafe.1, nofun⟩, hsafe, nofun⟩
      | raised message => exact ⟨⟨hsafe.1, hrec (by simp)⟩, hsafe, nofun⟩

/-- An undisturbed call with a usable list retires all of it and leaves no remains. -/
theorem callStep_complete {p : Process D} (h : Sound p) {c : Call D} (hc : Undisturbed c)
    {acknowledged : List (D × D)} (hu : Usable c.checkpoint p.ledger acknowledged) :
    Clean (callStep p c).ledger ∧
      Progress p.ledger (callStep p c).ledger (pending p.ledger acknowledged) := by
  have hu' : Usable c.reread p.ledger acknowledged := by
    rw [hc.reread]
    exact hu
  have hwp := wp_retireAcknowledgedReady (w := p.world c) (c := c) h.agree h.recovered
  unfold wp at hwp
  unfold callStep
  cases hx : exec (retireAcknowledgedReady c) (p.world c) with
  | mk r t =>
    rw [hx] at hwp
    cases r with
    | ok retired =>
      obtain ⟨-, -, -, hfull⟩ := hwp
      obtain ⟨hclean, hall⟩ := hfull hc.defers hc.reread
      exact ⟨hclean, hall acknowledged hu'⟩
    | error e =>
      obtain ⟨-, -, hbad⟩ := hwp
      exact absurd hu' (hbad hc.steps hc.reread (hc.recheck.trans hc.reread.symm) hc.revision
        acknowledged)

theorem fresh_sound {l : Ledger D} (h : Agree l) : Sound ⟨l, false⟩ := ⟨h, nofun⟩

theorem run_sound {l : Ledger D} (h : Agree l) (calls : List (Call D)) :
    Sound (run callStep ⟨l, false⟩ calls) := by
  have hstep : ∀ (p : Process D) (c : Call D), True → Sound p → Sound (callStep p c) :=
    fun _ c _ hp => (callStep_safe hp c).1
  exact run_invariant hstep (fresh_sound h) (fun _ _ => trivial)

/-- Calls over one list retire only listed artifacts, wherever they stop. -/
theorem run_listed {l : Ledger D} (h : Agree l) {checkpoint : Checkpoint D}
    {acknowledged : List (D × D)} (hu : Usable checkpoint l acknowledged) {calls : List (Call D)}
    (hcalls : ∀ c ∈ calls, c.reread = checkpoint) :
    ∃ done, Progress l (run callStep ⟨l, false⟩ calls).ledger done ∧
      ∀ id ∈ done, id ∈ pending l acknowledged := by
  have hstep : ∀ (p : Process D) (c : Call D), c.reread = checkpoint →
      (Sound p ∧ ∃ done, Progress l p.ledger done ∧ ∀ id ∈ done, id ∈ pending l acknowledged) →
      Sound (callStep p c) ∧ ∃ done, Progress l (callStep p c).ledger done ∧
        ∀ id ∈ done, id ∈ pending l acknowledged := by
    rintro p c hc ⟨hp, done, hprog, hdone⟩
    obtain ⟨hsound, ⟨-, more, hmore, hsome⟩, -⟩ := callStep_safe hp c
    refine ⟨hsound, done ++ more, hprog.trans hmore, ?_⟩
    intro id hid
    rcases List.mem_append.mp hid with hid | hid
    · exact hdone id hid
    · rcases hsome with rfl | ⟨other, ⟨hparse, -⟩, hpre⟩
      · simp at hid
      · rw [hc, hu.1] at hparse
        obtain rfl := Except.ok.inj hparse
        obtain ⟨hlist, hready⟩ := mem_pending.mp (hpre.subset hid)
        exact mem_pending.mpr ⟨hlist, ((hprog.isReady id).mp hready).1⟩
  exact (run_invariant hstep ⟨fresh_sound h, [], (Cleared.refl l).progress, by simp⟩ hcalls).2

/-- The one ledger in which a list ends: exactly its artifacts are retired. -/
structure Settled (l : Ledger D) (acknowledged : List (D × D)) (l' : Ledger D) : Prop where
  legacy : l'.legacy = l.legacy
  readyFrontier : l'.readyFrontier = l.readyFrontier
  v2Frontier : l'.v2Frontier = l.v2Frontier
  nextPublicOrder : l'.nextPublicOrder = l.nextPublicOrder
  entries : ∀ id, l'.entries.get id = (l.entries.get id).map fun e =>
    if id ∈ acknowledged.map Prod.fst then Entry.retire e else e
  proofs : ∀ id, l'.proofs.get id =
    if id ∈ pending l acknowledged then none else l.proofs.get id
  directories : ∀ id, (l'.IsReady id → l'.directories.get id = l.directories.get id) ∧
    (¬ l'.IsReady id → l'.directories.get id = none)
  visible : ∀ id, l'.directories.get id ≠ none ↔ l'.IsReady id

theorem settled_of_progress {l l' : Ledger D} {acknowledged : List (D × D)} {done : List D}
    (hp : Progress l l' done) (hdone : ∀ id, id ∈ done ↔ id ∈ pending l acknowledged)
    (ha : Agree l') (hc : Clean l') : Settled l acknowledged l' := by
  have hgone : ∀ id, ¬ l'.IsReady id → l'.directories.get id = none := by
    intro id hnot
    cases hd : l'.directories.get id with
    | none => rfl
    | some d =>
      obtain ⟨-, e, he⟩ := ha.known id d hd
      cases hst : e.state with
      | ready => exact absurd ⟨e, he, hst⟩ hnot
      | retired =>
        have := hc id ⟨e, he, hst⟩
        rw [hd] at this
        cases this
  refine ⟨hp.legacy, hp.readyFrontier, hp.v2Frontier, hp.nextPublicOrder, ?_, ?_, ?_, ?_⟩
  · intro id
    rw [hp.entries]
    cases he : l.entries.get id with
    | none => rfl
    | some e =>
      -- A listed artifact that was not pending was retired already.
      by_cases hmem : id ∈ acknowledged.map Prod.fst
      · by_cases hready : e.state = .ready
        · have : id ∈ done := (hdone id).mpr (mem_pending.mpr ⟨hmem, e, he, hready⟩)
          simp only [Option.map_some, if_pos this, if_pos hmem]
        · have : id ∉ done := by
            intro h
            obtain ⟨-, e', he', hready'⟩ := mem_pending.mp ((hdone id).mp h)
            rw [he] at he'
            exact hready (Option.some.inj he' ▸ hready')
          simp only [Option.map_some, if_neg this, if_pos hmem, retire_retired hready]
      · have : id ∉ done := fun h => hmem (mem_pending.mp ((hdone id).mp h)).1
        simp only [Option.map_some, if_neg this, if_neg hmem]
  · intro id
    rw [hp.proofs]
    simp only [hdone]
  · exact fun id => ⟨hp.kept id, hgone id⟩
  · intro id
    constructor
    · intro hne
      by_contra hnot
      exact hne (hgone id hnot)
    · rintro ⟨e, he, hready⟩
      rw [ha.ready id e he hready]
      simp

/-- Retirement by acknowledgement is all-checked, exact and restartable: from every ledger in
agreement and after any calls, a call with an unusable list changes no entry, proof or ready
directory; a call with a usable list retires an initial part of what is still ready, and removes
what it retired if it returns; and any calls over one list followed by an undisturbed one end in
the same ledger. -/
theorem ack_retirement_exact (l : Ledger D) (hl : Agree l) (calls : List (Call D)) :
    let p := run callStep ⟨l, false⟩ calls
    (∀ c, (∀ acknowledged, ¬ Usable c.reread p.ledger acknowledged) →
      Progress p.ledger (callStep p c).ledger []) ∧
    (∀ c acknowledged, Usable c.reread p.ledger acknowledged →
      ∃ done, done <+: pending p.ledger acknowledged ∧
        Progress p.ledger (callStep p c).ledger done ∧
        (Returns p c → ∀ id ∈ done, (callStep p c).ledger.directories.get id = none)) ∧
    (∀ checkpoint acknowledged, Usable checkpoint l acknowledged →
      (∀ c ∈ calls, c.reread = checkpoint) → ∀ c, Undisturbed c → c.checkpoint = checkpoint →
        Settled l acknowledged (callStep p c).ledger) := by
  intro p
  have hp : Sound p := run_sound hl calls
  refine ⟨?_, ?_, ?_⟩
  · intro c hbad
    obtain ⟨-, ⟨-, done, hprog, hdone⟩, -⟩ := callStep_safe hp c
    rcases hdone with rfl | ⟨acknowledged, hu, -⟩
    · exact hprog
    · exact absurd hu (hbad acknowledged)
  · intro c acknowledged hu
    obtain ⟨-, ⟨-, done, hprog, hdone⟩, hremoved⟩ := callStep_safe hp c
    have hpre : done <+: pending p.ledger acknowledged := by
      rcases hdone with rfl | ⟨other, hother, hpre⟩
      · exact List.nil_prefix
      · have := hother.1
        rw [hu.1] at this
        obtain rfl := Except.ok.inj this
        exact hpre
    refine ⟨done, hpre, hprog, fun hret id hid => ?_⟩
    have hready := (mem_pending.mp (hpre.subset hid)).2
    exact hremoved hret id hready (fun h => ((hprog.isReady id).mp h).2 hid)
  · intro checkpoint acknowledged hu hcalls c hc hcheck
    obtain ⟨done, hprog, hdone⟩ := run_listed hl hu hcalls
    have hup : Usable c.checkpoint p.ledger acknowledged := by
      rw [hcheck]
      exact ⟨hu.1, hprog.listed.mpr hu.2⟩
    obtain ⟨hclean, hlast⟩ := callStep_complete hp hc hup
    refine settled_of_progress (hprog.trans hlast) ?_ (callStep_safe hp c).1.agree hclean
    intro id
    rw [List.mem_append, mem_pending, mem_pending, hprog.isReady]
    constructor
    · rintro (hid | ⟨hid, hready, -⟩)
      · exact mem_pending.mp (hdone id hid)
      · exact ⟨hid, hready⟩
    · rintro ⟨hid, hready⟩
      by_cases hmem : id ∈ done
      · exact .inl hmem
      · exact .inr ⟨hid, hready, hmem⟩

/-- A one-record artifact whose digests are all `n`. -/
def singleEntry (n : ℕ) : Entry ℕ := ⟨n, .ready, n, n + 1, n, [], [(n, n + 1, n)], n, n, n, 1⟩

def singleProof (n : ℕ) : ReplayProof ℕ := ⟨.active, n, n, [⟨0, 1, 0, .raw, 0⟩], n, n, 1, [n]⟩

/-- Two ready artifacts, `1` and `2`. -/
def twoReady : Ledger ℕ where
  legacy := []
  entries := ⟨[(1, singleEntry 1), (2, singleEntry 2)], by decide⟩
  proofs := ⟨[(1, singleProof 1), (2, singleProof 2)], by decide⟩
  readyFrontier := 3
  v2Frontier := some ⟨2, ⟨.unknown, 0, none, "", false⟩, none⟩
  nextPublicOrder := 3
  directories := ⟨[(1, ⟨some 1, some 1, false⟩), (2, ⟨some 2, some 2, false⟩)], by decide⟩

/-- A checkpoint that acknowledges artifact `1` by its audio digest. -/
def acknowledgesOne : Checkpoint ℕ :=
  .value (.object [("acknowledged",
    .array [.object [("id", .digest 1), ("audio_sha256", .digest 1)]])])

def steadyCall (steps : Option ℕ) : Call ℕ :=
  ⟨acknowledgesOne, acknowledgesOne, acknowledgesOne, false, [], false, steps⟩

theorem twoReady_agree : Agree twoReady := by
  have hentry : ∀ id e, twoReady.entries.get id = some e →
      (id = 1 ∧ e = singleEntry 1) ∨ (id = 2 ∧ e = singleEntry 2) := by
    intro id e he
    simpa [Table.get_eq_some, twoReady] using he
  have hproof : ∀ id p, twoReady.proofs.get id = some p →
      (id = 1 ∧ p = singleProof 1) ∨ (id = 2 ∧ p = singleProof 2) := by
    intro id p hp
    simpa [Table.get_eq_some, twoReady] using hp
  refine ⟨fun id => ⟨?_, ?_⟩, ?_, ?_, ?_⟩
  · rintro ⟨p, hp, -⟩
    rcases hproof id p hp with ⟨rfl, -⟩ | ⟨rfl, -⟩
    · exact ⟨singleEntry 1, rfl, rfl⟩
    · exact ⟨singleEntry 2, rfl, rfl⟩
  · rintro ⟨e, he, -⟩
    rcases hentry id e he with ⟨rfl, -⟩ | ⟨rfl, -⟩
    · exact ⟨singleProof 1, rfl, rfl⟩
    · exact ⟨singleProof 2, rfl, rfl⟩
  · intro id e p he _ hp
    rcases hentry id e he with ⟨rfl, rfl⟩ | ⟨rfl, rfl⟩
    · rcases hproof 1 p hp with ⟨-, rfl⟩ | ⟨h, -⟩
      · decide
      · cases h
    · rcases hproof 2 p hp with ⟨h, -⟩ | ⟨-, rfl⟩
      · cases h
      · decide
  · intro id e he _
    rcases hentry id e he with ⟨rfl, rfl⟩ | ⟨rfl, rfl⟩ <;> rfl
  · intro id d hd
    have : (id = 1 ∧ d = ⟨some 1, some 1, false⟩) ∨ (id = 2 ∧ d = ⟨some 2, some 2, false⟩) := by
      simpa [Table.get_eq_some, twoReady] using hd
    rcases this with ⟨rfl, rfl⟩ | ⟨rfl, rfl⟩
    · exact ⟨rfl, singleEntry 1, rfl⟩
    · exact ⟨rfl, singleEntry 2, rfl⟩

/-- The first call stops after its transaction, the second one finishes the removal. -/
theorem ack_retirement_exact_resumed :
    Settled twoReady [(1, 1)]
      (callStep (run callStep ⟨twoReady, false⟩ [steadyCall (some 1)]) (steadyCall none)).ledger := by
  have husable : Usable acknowledgesOne twoReady [(1, 1)] := by
    refine ⟨rfl, by simp, ?_⟩
    intro pair hpair
    obtain rfl : pair = (1, 1) := by simpa using hpair
    exact ⟨singleEntry 1, rfl, rfl⟩
  have hsteady : ∀ c ∈ [steadyCall (some 1)], c.reread = acknowledgesOne := by
    intro c hc
    obtain rfl : c = steadyCall (some 1) := by simpa using hc
    rfl
  exact (ack_retirement_exact twoReady twoReady_agree [steadyCall (some 1)]).2.2 acknowledgesOne
    [(1, 1)] husable hsteady (steadyCall none) ⟨rfl, rfl, rfl, rfl, rfl⟩ rfl

end AckExactness
