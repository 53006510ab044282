import OmiCollector.PagedSlices
import OmiCollector.ProofPages

/-! The hashes of a replay proof, read back from its stored pages. A proof in memory has the page
index and the runs; the hashes stay in the state store, and a replay reads the pages that its
records lie on, rechecks each of them and cuts out what it asked for. -/
namespace ProofScan

open ByteCodec Checks KeyedTable PublicationLedger TypedSlices PagedSlices
open NormalizationRuns (uint64Max)
open ProofPages (Digest ProofPage IndexEntry hashBytes maxPageRecords pageOf pagesFrom validateProofPage)

variable {D : Type}

/-- Digests as they are stored: 32 bytes each. -/
structure DigestBytes (D : Type) where
  bytes : D → Bytes
  length : ∀ d, (bytes d).length = hashBytes
  injective : Function.Injective bytes

def DigestBytes.sha256 (code : DigestBytes D) (codec : Codec D) (message : Bytes) : Digest :=
  ⟨code.bytes (codec.sha256 message), code.length _⟩

/-- Digests that are their own bytes. -/
def digestBytes : DigestBytes Digest := ⟨Subtype.val, Subtype.property, Subtype.val_injective⟩

/-- What a replay reads again of a row of `ready_replay_proof`. -/
structure ProofRoot (D : Type) where
  lifecycle : ProofLifecycle
  proofContentSha256 : D
  deriving DecidableEq

/-- The proofs of the state store: their roots, and their pages by ordinal. -/
structure ProofTables (D : Type) where
  roots : Table D (ProofRoot D)
  pages : Table (D × ℕ) ProofPage

/-- `_ReplayProof`, with its page index and its runs unpacked. -/
structure PrivateProof (D : Type) where
  bundleId : D
  recordCount : ℕ
  index : List IndexEntry
  runs : List NormalizationRun
  proofContentSha256 : D

variable [DecidableEq D]

/-- The loop of `_replay_proof_hashes` over the page index: pages outside `[first, stop)` are not
read, and every other one has to pass its own check and be the one that the index lists. -/
def scanPages (sha256 : Bytes → Digest) (pageAt : ℕ → Option ProofPage) (first stop : ℕ) :
    ℕ → List IndexEntry → Except String (List Bytes)
  | _, [] => .ok []
  | ordinal, e :: rest =>
    if e.first + e.count ≤ first ∨ stop ≤ e.first then
      scanPages sha256 pageAt first stop (ordinal + 1) rest
    else
      match pageAt ordinal with
      | none => .error "proof page is missing"
      | some page => do
        let values ← validateProofPage sha256 page (some e.first)
        refuse (page.recordCount ≠ e.count ∨ page.pageSha256 ≠ e.digest)
          "proof page does not match index"
        let left := max (first : ℤ) e.first - e.first
        let right := min (stop : ℤ) (e.first + e.count) - e.first
        let later ← scanPages sha256 pageAt first stop (ordinal + 1) rest
        return (values.take right.toNat).drop left.toNat ++ later

/-- The reads of `_replay_proof_hashes` under one transaction. -/
def readProof (sha256 : Bytes → Digest) (tables : ProofTables D) (proof : PrivateProof D)
    (first stop : ℕ) : Except String (List Bytes) := do
  refuse (tables.roots.get proof.bundleId ≠ some ⟨.active, proof.proofContentSha256⟩)
    "proof root changed"
  scanPages sha256 (fun ordinal => tables.pages.get (proof.bundleId, ordinal)) first stop 0 proof.index

def replayProofHashes (sha256 : Bytes → Digest) (tables : ProofTables D) (proof : PrivateProof D)
    (first count : ℕ) : Except ReadyError (List Bytes) := do
  refuse (count = 0 ∨ proof.recordCount < first + count)
    (.durabilityFatal "private replay proof request is outside its root")
  let hashes ← (readProof sha256 tables proof first (first + count)).mapError
    fun _ => .durabilityFatal "private replay proof page is corrupt"
  refuse (hashes.length ≠ count)
    (.durabilityFatal "private replay proof pages do not cover the replay")
  return hashes

/-- `_insert_replay_proof_pages`: the pages of a bundle under their ordinals. -/
def insertReplayProofPages (bundleId : D) (pages : Table (D × ℕ) ProofPage) :
    ℕ → List ProofPage → Table (D × ℕ) ProofPage
  | _, [] => pages
  | ordinal, page :: rest =>
    insertReplayProofPages bundleId (pages.put (bundleId, ordinal) page) (ordinal + 1) rest

/-! ### Pages as they were written -/

/-- What `[first, stop)` takes of digests that start at `base`. -/
def window (base first stop : ℕ) (digests : List Bytes) : List Bytes :=
  (digests.take (stop - base)).drop (first - base)

theorem window_append (base first stop : ℕ) (page rest : List Bytes) :
    window base first stop (page ++ rest) =
      window base first stop page ++ window (base + page.length) first stop rest := by
  simp only [window, List.take_append, List.drop_append, List.length_take]
  congr 1
  by_cases hcut : stop - base ≤ page.length
  · have hnone : stop - base - page.length = 0 := by omega
    have hnone' : stop - (base + page.length) = 0 := by omega
    rw [hnone, hnone', List.take_zero, List.drop_nil, List.drop_nil]
  · have hlength : min (stop - base) page.length = page.length := by omega
    rw [hlength, Nat.sub_sub, Nat.sub_sub]

variable {sha256 : Bytes → Digest} {pageAt : ℕ → Option ProofPage}

/-- One written page gives its part of the window, read or not. -/
theorem scanPages_cons (first stop : ℕ) {base ordinal : ℕ} {digests : List Bytes}
    {rest : List IndexEntry} (hlen : ∀ d ∈ digests, d.length = hashBytes) (hne : digests ≠ [])
    (hmax : digests.length ≤ maxPageRecords) (hbound : (base + digests.length : ℤ) ≤ uint64Max)
    (hpage : pageAt ordinal = some (pageOf sha256 base digests)) {later : List Bytes}
    (hrest : scanPages sha256 pageAt first stop (ordinal + 1) rest = .ok later) :
    scanPages sha256 pageAt first stop ordinal ((pageOf sha256 base digests).entry :: rest) =
      .ok (window base first stop digests ++ later) := by
  have hfirst : (pageOf sha256 base digests).entry.first = base := rfl
  have hcount : (pageOf sha256 base digests).entry.count = digests.length := rfl
  rw [scanPages, hfirst, hcount]
  by_cases houtside : (base + digests.length : ℤ) ≤ first ∨ (stop : ℤ) ≤ base
  · have hempty : window base first stop digests = [] := by
      apply List.eq_nil_of_length_eq_zero
      rw [window, List.length_drop, List.length_take]
      omega
    rw [if_pos houtside, hrest, hempty, List.nil_append]
  · have hvalid : ProofPages.ValidPage sha256 (pageOf sha256 base digests) :=
      ProofPages.validPage_pageOf hlen (Int.natCast_nonneg base) hne hmax hbound
    have hvalues : validateProofPage sha256 (pageOf sha256 base digests) (some base) = .ok digests := by
      apply ProofPages.validateProofPage_ok.mpr
      exact ⟨hvalid, rfl, frames_flatten (by decide) hlen⟩
    have hwindow : (digests.take (min (stop : ℤ) (base + digests.length) - base).toNat).drop
        (max (first : ℤ) base - base).toNat = window base first stop digests := by
      have hleft : (max (first : ℤ) base - base).toNat = first - base := by omega
      rw [hleft, window]
      by_cases hcut : stop - base ≤ digests.length
      · have hright : (min (stop : ℤ) (base + digests.length) - base).toNat = stop - base := by omega
        rw [hright]
      · have hright : (min (stop : ℤ) (base + digests.length) - base).toNat = digests.length := by
          omega
        rw [hright, List.take_length, List.take_of_length_le (by omega)]
    rw [if_neg houtside, hpage]
    have hlisted : ¬ ((pageOf sha256 base digests).recordCount ≠ digests.length ∨
        (pageOf sha256 base digests).pageSha256 ≠ (pageOf sha256 base digests).entry.digest) := by
      simp [ProofPage.entry, pageOf, ProofPages.makePage]
    simp only [hvalues, hrest, hwindow, refuse, if_neg hlisted, bind, Except.bind, pure, Except.pure]

/-- A scan of written pages gives the digests of the window. -/
theorem scanPages_eq (first stop base ordinal : ℕ) {digests : List Bytes}
    (hlen : ∀ d ∈ digests, d.length = hashBytes) (hbound : (base + digests.length : ℤ) ≤ uint64Max)
    (hpages : ∀ i page, (pagesFrom sha256 base digests)[i]? = some page →
      pageAt (ordinal + i) = some page) :
    scanPages sha256 pageAt first stop ordinal ((pagesFrom sha256 base digests).map ProofPage.entry) =
      .ok (window base first stop digests) := by
  induction digests using ProofPages.page_induction generalizing base ordinal with
  | short digests hshort =>
    by_cases hempty : digests = []
    · rw [hempty, ProofPages.pagesFrom_nil]
      simp [scanPages, window]
    · rw [ProofPages.pagesFrom_short hshort hempty] at hpages ⊢
      have hone : scanPages sha256 pageAt first stop (ordinal + 1) [] = .ok [] := rfl
      have hscan := scanPages_cons first stop hlen hempty hshort.le hbound
        (hpages 0 _ rfl) hone
      rwa [List.append_nil] at hscan
  | full page rest hfull ih =>
    have hsplit : pagesFrom sha256 base (page ++ rest) =
        pageOf sha256 base page :: pagesFrom sha256 (base + page.length : ℕ) rest := by
      rw [ProofPages.pagesFrom_append hfull, hfull, Nat.cast_add]
    have hne : page ≠ [] := by
      rintro rfl
      exact absurd hfull (by decide)
    rw [List.length_append] at hbound
    rw [hsplit] at hpages ⊢
    have hrest := ih (base + page.length) (ordinal + 1)
      (fun d hd => hlen d (List.mem_append_right _ hd)) (by push_cast at hbound ⊢; omega)
      fun i p hp => by
        have := hpages (i + 1) p (by simpa using hp)
        rwa [Nat.add_assoc, Nat.add_comm 1 i]
    rw [List.map_cons, window_append]
    apply scanPages_cons first stop (fun d hd => hlen d (List.mem_append_left _ hd)) hne hfull.le
      (by push_cast at hbound; omega) (hpages 0 _ rfl) hrest

variable {codec : Codec D} {code : DigestBytes D} {tables : ProofTables D} {proof : PrivateProof D}

/-- The pages that are written for hashes. -/
def writtenPages (codec : Codec D) (code : DigestBytes D) (hashes : List D) : List ProofPage :=
  pagesFrom (code.sha256 codec) 0 (hashes.map code.bytes)

/-- The state store holds an active proof as it was written. -/
structure Stored (codec : Codec D) (code : DigestBytes D) (tables : ProofTables D)
    (proof : PrivateProof D) (hashes : List D) : Prop where
  root : tables.roots.get proof.bundleId = some ⟨.active, proof.proofContentSha256⟩
  recordCount : proof.recordCount = hashes.length
  bound : (hashes.length : ℤ) ≤ uint64Max
  index : proof.index = (writtenPages codec code hashes).map ProofPage.entry
  pages : ∀ (i : ℕ) (page : ProofPage), (writtenPages codec code hashes)[i]? = some page →
    tables.pages.get (proof.bundleId, i) = some page

/-- Publication has written the proof of these normalized records: their pages lie in the state
store, and the private proof has the page index that was packed with them. -/
structure Written (sha256 : Bytes → Digest) (tables : ProofTables D) (proof : PrivateProof D)
    (records : List Bytes) : Prop where
  root : tables.roots.get proof.bundleId = some ⟨.active, proof.proofContentSha256⟩
  recordCount : proof.recordCount = records.length
  pages : ∃ pages blob, ProofPages.buildProofPages sha256 records = .ok pages ∧
    ProofPages.packPageIndex sha256 pages records.length = .ok blob ∧
    ProofPages.unpackPageIndex blob records.length = .ok proof.index ∧
    ∀ (i : ℕ) (page : ProofPage), pages[i]? = some page →
      tables.pages.get (proof.bundleId, i) = some page

theorem insertReplayProofPages_before (bundleId : D) {pages : Table (D × ℕ) ProofPage}
    {written : List ProofPage} {ordinal i : ℕ} (h : i < ordinal) :
    (insertReplayProofPages bundleId pages ordinal written).get (bundleId, i) =
      pages.get (bundleId, i) := by
  induction written generalizing pages ordinal with
  | nil => rfl
  | cons page rest ih =>
    have hother : ¬ (bundleId, i) = (bundleId, ordinal) := by
      rw [Prod.mk.injEq]
      omega
    rw [insertReplayProofPages, ih (by omega), Table.get_put, if_neg hother]

/-- The private proof of normalized records. -/
def PrivateProof.ofRecords (sha256 : Bytes → Digest) (bundleId : D) (runs : List NormalizationRun)
    (content : D) (records : List Bytes) : PrivateProof D where
  bundleId := bundleId
  recordCount := records.length
  index := (pagesFrom sha256 0 (records.map fun r => (sha256 r).val)).map ProofPage.entry
  runs := runs
  proofContentSha256 := content

/-- The state store once publication has made the proof of normalized records active. -/
def ProofTables.activate (sha256 : Bytes → Digest) (tables : ProofTables D) (proof : PrivateProof D)
    (records : List Bytes) : ProofTables D where
  roots := tables.roots.put proof.bundleId ⟨.active, proof.proofContentSha256⟩
  pages := insertReplayProofPages proof.bundleId tables.pages 0
    (pagesFrom sha256 0 (records.map fun r => (sha256 r).val))

/-- Every inserted page is found under its ordinal. -/
theorem insertReplayProofPages_get (bundleId : D) {pages : Table (D × ℕ) ProofPage}
    {written : List ProofPage} {ordinal i : ℕ} {page : ProofPage} (h : written[i]? = some page) :
    (insertReplayProofPages bundleId pages ordinal written).get (bundleId, ordinal + i) =
      some page := by
  induction written generalizing pages ordinal i with
  | nil => simp at h
  | cons first rest ih =>
    rw [insertReplayProofPages]
    cases i with
    | zero =>
      obtain rfl : first = page := by simpa using h
      have hlt : ordinal < ordinal + 1 := Nat.lt_succ_self ordinal
      exact (insertReplayProofPages_before bundleId hlt).trans (Table.get_put_self ..)
    | succ i =>
      have hrest := @ih (pages.put (bundleId, ordinal) first) (ordinal + 1) i (by simpa using h)
      rwa [Nat.add_assoc, Nat.add_comm 1 i] at hrest

theorem written_activate {records : List Bytes} (hlen : ∀ r ∈ records, r.length = ProofPages.recordBytes)
    (hbound : (records.length : ℤ) ≤ uint64Max) (bundleId : D) (runs : List NormalizationRun)
    (content : D) (tables : ProofTables D) :
    Written sha256
      (tables.activate sha256 (PrivateProof.ofRecords sha256 bundleId runs content records) records)
      (PrivateProof.ofRecords sha256 bundleId runs content records) records := by
  obtain ⟨blob, hblob, hindex⟩ := (@ProofPages.paged_pagesFrom sha256 records hbound).indexed
  have hbuild : ProofPages.buildProofPages sha256 records =
      .ok (pagesFrom sha256 0 (records.map fun r => (sha256 r).val)) :=
    ProofPages.buildFrom_eq hlen (show ([] : List Bytes).length < maxPageRecords by decide) 0
  refine ⟨Table.get_put_self .., rfl, _, blob, hbuild, hblob, hindex, fun i page hpage => ?_⟩
  have hget := @insertReplayProofPages_get D _ bundleId tables.pages _ 0 i page hpage
  rwa [Nat.zero_add] at hget

/-- A written proof is stored with the digests of its records. -/
theorem Written.stored {records : List Bytes} (h : Written (code.sha256 codec) tables proof records)
    (hlen : ∀ r ∈ records, r.length = ProofPages.recordBytes) :
    Stored codec code tables proof (records.map codec.sha256) := by
  obtain ⟨pages, blob, hpages, hblob, hindex, htables⟩ := h.pages
  have hbuild : ProofPages.buildProofPages (code.sha256 codec) records =
      .ok (writtenPages codec code (records.map codec.sha256)) := by
    rw [writtenPages, List.map_map]
    exact ProofPages.buildFrom_eq hlen (show ([] : List Bytes).length < maxPageRecords by decide) 0
  obtain rfl := Except.ok.inj (hpages.symm.trans hbuild)
  have hbound : (records.length : ℤ) ≤ uint64Max := by
    rw [ProofPages.packPageIndex, bind_ok] at hblob
    obtain ⟨_, hcount, -⟩ := hblob
    exact (NormalizationRuns.validateCount_ok.mp hcount).2
  obtain ⟨blob', hblob', hindex'⟩ :=
    (@ProofPages.paged_pagesFrom (code.sha256 codec) records hbound).indexed
  have hwritten : writtenPages codec code (records.map codec.sha256) =
      pagesFrom (code.sha256 codec) 0 (records.map fun r => (code.sha256 codec r).val) := by
    rw [writtenPages, List.map_map]
    rfl
  rw [← hwritten] at hblob' hindex'
  obtain rfl := Except.ok.inj (hblob.symm.trans hblob')
  exact ⟨h.root, by rw [h.recordCount, List.length_map], by rwa [List.length_map],
    Except.ok.inj (hindex.symm.trans hindex'), htables⟩

/-- The hashes that a replay reads are those of its records. -/
theorem replayProofHashes_eq {hashes : List D} (h : Stored codec code tables proof hashes)
    {first count : ℕ} (hcount : 0 < count) (hinside : first + count ≤ hashes.length) :
    replayProofHashes (code.sha256 codec) tables proof first count =
      .ok (((hashes.drop first).take count).map code.bytes) := by
  have hlen : ∀ d ∈ hashes.map code.bytes, d.length = hashBytes := by
    intro d hd
    obtain ⟨digest, -, rfl⟩ := List.mem_map.mp hd
    exact code.length digest
  have hbound := h.bound
  have hscan : scanPages (code.sha256 codec)
      (fun ordinal => tables.pages.get (proof.bundleId, ordinal)) first (first + count) 0
      proof.index = .ok (((hashes.drop first).take count).map code.bytes) := by
    rw [h.index]
    have heq := scanPages_eq first (first + count) 0 0 hlen (by simpa using hbound)
      fun i page hpage => by
        rw [Nat.zero_add]
        exact h.pages i page hpage
    rw [writtenPages]
    refine heq.trans ?_
    rw [window, Nat.sub_zero, Nat.sub_zero, List.drop_take, Nat.add_sub_cancel_left,
      ← List.map_drop, ← List.map_take]
  have hrange : ¬ (count = 0 ∨ proof.recordCount < first + count) := by
    rw [h.recordCount]
    omega
  have hlength : (((hashes.drop first).take count).map code.bytes).length = count := by
    rw [List.length_map, List.length_take, List.length_drop]
    omega
  simp only [replayProofHashes, readProof, refuse, if_neg hrange, h.root, hscan, hlength, ne_eq,
    not_true_eq_false, if_false, bind, Except.bind, Except.mapError, pure, Except.pure]

end ProofScan
