import OmiCollector.NormalizationRuns
import OmiCollector.Sha256
import Mathlib.Algebra.BigOperators.Group.List.Basic

/-! The hash pages of a replay proof. The pager streams record digests into pages of 128, a
validator rechecks one page, and an index lists the pages by their first record. Each of them
counts records for itself; here they are shown to count alike. -/
namespace ProofPages

open ByteCodec Checks Tiling
open NormalizationRuns (uint64Max validateCount validateCount_ok)

def recordBytes : ℕ := 444

def hashBytes : ℕ := 32

def maxPageRecords : ℕ := 128

def pageDomain : Bytes :=
  "omi-collector-replay-proof-page-v1".toList.map (fun c => UInt8.ofNat c.toNat) ++ [0]

abbrev Digest := { d : Bytes // d.length = hashBytes }

structure ProofPage where
  firstRecordIndex : ℤ
  recordCount : ℤ
  hashes : Bytes
  pageSha256 : Bytes
  deriving DecidableEq, Repr

def ProofPage.stop (p : ProofPage) : ℤ := p.firstRecordIndex + p.recordCount

/-- What the page index keeps of a page. -/
structure IndexEntry where
  first : ℤ
  count : ℤ
  digest : Bytes
  deriving DecidableEq, Repr

def IndexEntry.span (e : IndexEntry) : ℤ × ℤ := (e.first, e.first + e.count)

def ProofPage.entry (p : ProofPage) : IndexEntry :=
  ⟨p.firstRecordIndex, p.recordCount, p.pageSha256⟩

section Pager

variable (sha256 : Bytes → Digest)

def recordSha256 (record : Bytes) : Except String Bytes := do
  refuse (record.length ≠ recordBytes) "record must be exactly 444 bytes"
  pure (sha256 record).val

/-- The page hash covers the domain, the `>QH` header and the record hashes. -/
def pageDigest (first count : ℤ) (hashes : Bytes) : Bytes :=
  (sha256 (pageDomain ++ (toBytesBig 8 first.toNat ++ toBytesBig 2 count.toNat) ++ hashes)).val

def makePage (first count : ℤ) (hashes : Bytes) : ProofPage :=
  ⟨first, count, hashes, pageDigest sha256 first count hashes⟩

/-- The pager with the pending hashes of the page being filled. -/
def buildFrom (first : ℤ) (hashes : Bytes) (count : ℕ) : List Bytes → Except String (List ProofPage)
  | [] => pure (if count ≠ 0 then [makePage sha256 first count hashes] else [])
  | record :: records => do
    let digest ← recordSha256 sha256 record
    if count + 1 = maxPageRecords then
      let pages ← buildFrom (first + (count + 1)) [] 0 records
      pure (makePage sha256 first (count + 1 : ℕ) (hashes ++ digest) :: pages)
    else buildFrom first (hashes ++ digest) (count + 1) records

def buildProofPages (records : List Bytes) : Except String (List ProofPage) :=
  buildFrom sha256 0 [] 0 records

def validateIndex (index : ℤ) : Except String Unit :=
  refuse (¬ (0 ≤ index ∧ index ≤ uint64Max)) "record index is outside uint64"

def validateExpected (p : ProofPage) : Option ℤ → Except String Unit
  | none => pure ()
  | some expected => do
    validateIndex expected
    refuse (p.firstRecordIndex ≠ expected) "proof page index is unexpected"

def validateProofPage (p : ProofPage) (expected : Option ℤ) : Except String (List Bytes) := do
  validateIndex p.firstRecordIndex
  refuse (¬ (1 ≤ p.recordCount ∧ p.recordCount ≤ maxPageRecords))
    "proof page record count is invalid"
  refuse (uint64Max < p.stop) "proof page range is outside uint64"
  validateExpected p expected
  refuse ((p.hashes.length : ℤ) ≠ p.recordCount * hashBytes) "proof page hashes have invalid length"
  refuse (p.pageSha256.length ≠ hashBytes) "proof page hash has invalid length"
  refuse (pageDigest sha256 p.firstRecordIndex p.recordCount p.hashes ≠ p.pageSha256)
    "proof page hash does not match its contents"
  pure (frames hashBytes p.hashes)

/-- The bytes of one index entry, `>QH32s`. -/
def packEntry (e : IndexEntry) : Bytes :=
  toBytesBig 8 e.first.toNat ++ (toBytesBig 2 e.count.toNat ++ e.digest)

def entrySize : ℕ := 42

def unpackEntry (frame : Bytes) : IndexEntry :=
  ⟨fromBytesBig (field frame 0 8), fromBytesBig (field frame 8 2), field frame 10 32⟩

/-- The index encoder's loop from record `next` on. -/
def packIndexFrom (recordCount : ℤ) : ℤ → List ProofPage → Except String Bytes
  | next, [] => do
    refuse (next ≠ recordCount) "proof pages must cover every record"
    pure []
  | next, page :: pages => do
    let _ ← validateProofPage sha256 page (some next)
    refuse (recordCount < page.stop) "proof pages exceed record count"
    let packed ← packIndexFrom recordCount (next + page.recordCount) pages
    pure (packEntry page.entry ++ packed)

def packPageIndex (pages : List ProofPage) (recordCount : ℤ) : Except String Bytes := do
  validateCount recordCount
  packIndexFrom sha256 recordCount 0 pages

end Pager

/-- The index decoder's loop from record `next` on. -/
def unpackIndexFrom (recordCount : ℤ) : ℤ → List Bytes → Except String (List IndexEntry)
  | next, [] => do
    refuse (next ≠ recordCount) "page index entries must cover every record"
    pure []
  | next, frame :: frames => do
    let e := unpackEntry frame
    refuse (e.first ≠ next ∨ ¬ (1 ≤ e.count ∧ e.count ≤ maxPageRecords) ∨
      recordCount < e.first + e.count) "page index entries must be contiguous and exhaustive"
    let entries ← unpackIndexFrom recordCount (next + e.count) frames
    pure (e :: entries)

def unpackPageIndex (blob : Bytes) (recordCount : ℤ) : Except String (List IndexEntry) := do
  validateCount recordCount
  refuse (blob.length % entrySize ≠ 0) "page index blob has invalid length"
  unpackIndexFrom recordCount 0 (frames entrySize blob)

/-- The digests that belong on page `i`. -/
def group (digests : List Bytes) (i : ℕ) : List Bytes :=
  (digests.drop (i * maxPageRecords)).take maxPageRecords

/-- How many pages hold `count` records. -/
def pageCount (count : ℕ) : ℕ := (count + 127) / maxPageRecords

def groups (digests : List Bytes) : List (List Bytes) :=
  (List.range (pageCount digests.length)).map (group digests)

/-- The page that holds a group, from record `first` on. -/
def pageOf (sha256 : Bytes → Digest) (first : ℤ) (digests : List Bytes) : ProofPage :=
  makePage sha256 first digests.length digests.flatten

/-- The pages of a list of digests from record `first` on, each found by its number. -/
def pagesFrom (sha256 : Bytes → Digest) (first : ℤ) (digests : List Bytes) : List ProofPage :=
  (List.range (pageCount digests.length)).map fun i =>
    pageOf sha256 (first + (i * maxPageRecords : ℕ)) (group digests i)

variable {sha256 : Bytes → Digest}

theorem pageCount_append {full rest : List Bytes} (h : full.length = maxPageRecords) :
    pageCount (full ++ rest).length = pageCount rest.length + 1 := by
  simp only [pageCount, List.length_append, h, maxPageRecords]
  omega

theorem group_append_zero {full : List Bytes} (h : full.length = maxPageRecords)
    (rest : List Bytes) : group (full ++ rest) 0 = full := by
  simp [group, ← h]

theorem group_append_succ {full : List Bytes} (h : full.length = maxPageRecords)
    (rest : List Bytes) (i : ℕ) : group (full ++ rest) (i + 1) = group rest i := by
  have hidx : (i + 1) * maxPageRecords = full.length + i * maxPageRecords := by rw [h]; ring
  rw [group, hidx, ← List.drop_drop, List.drop_left, group]

theorem groups_append {full : List Bytes} (h : full.length = maxPageRecords)
    (rest : List Bytes) : groups (full ++ rest) = full :: groups rest := by
  rw [groups, pageCount_append h, List.range_succ_eq_map, List.map_cons, group_append_zero h,
    List.map_map, groups]
  congr 1
  apply List.map_congr_left
  exact fun i _ => group_append_succ h rest i

theorem pagesFrom_append {full : List Bytes} (h : full.length = maxPageRecords)
    (rest : List Bytes) (first : ℤ) : pagesFrom sha256 first (full ++ rest) =
      pageOf sha256 first full :: pagesFrom sha256 (first + maxPageRecords) rest := by
  rw [pagesFrom, pageCount_append h, List.range_succ_eq_map, List.map_cons, group_append_zero h,
    List.map_map, pagesFrom]
  congr 1
  · simp
  · apply List.map_congr_left
    intro i _
    simp only [Function.comp, Nat.succ_eq_add_one, group_append_succ h]
    congr 1
    push_cast
    ring

/-- A list of digests is a partly filled page, or a full page before more digests. -/
theorem page_induction {motive : List Bytes → Prop}
    (short : ∀ digests, digests.length < maxPageRecords → motive digests)
    (full : ∀ page rest, page.length = maxPageRecords → motive rest → motive (page ++ rest))
    (digests : List Bytes) : motive digests := by
  induction hn : digests.length using Nat.strong_induction_on generalizing digests with
  | _ n ih =>
    by_cases hshort : digests.length < maxPageRecords
    · exact short digests hshort
    · rw [← List.take_append_drop maxPageRecords digests]
      have hpos : 0 < maxPageRecords := by decide
      apply full
      · rw [List.length_take]
        omega
      · exact ih _ (by rw [List.length_drop]; omega) _ rfl

theorem groups_short {digests : List Bytes} (h : digests.length < maxPageRecords)
    (hne : digests ≠ []) : groups digests = [digests] := by
  have hpos := List.length_pos_iff.mpr hne
  have hcount : pageCount digests.length = 1 := by
    simp only [pageCount, maxPageRecords] at h ⊢
    omega
  simp [groups, hcount, List.range_succ, group, List.take_of_length_le h.le]

theorem pagesFrom_short {digests : List Bytes} (h : digests.length < maxPageRecords)
    (hne : digests ≠ []) (first : ℤ) :
    pagesFrom sha256 first digests = [pageOf sha256 first digests] := by
  have hpos := List.length_pos_iff.mpr hne
  have hcount : pageCount digests.length = 1 := by
    simp only [pageCount, maxPageRecords] at h ⊢
    omega
  simp [pagesFrom, hcount, List.range_succ, group, List.take_of_length_le h.le]

theorem pagesFrom_nil (first : ℤ) : pagesFrom sha256 first [] = [] := by
  simp [pagesFrom, pageCount, maxPageRecords]

theorem groups_nil : groups [] = [] := by
  simp [groups, pageCount, maxPageRecords]

theorem recordSha256_ok {record : Bytes} (h : record.length = recordBytes) :
    recordSha256 sha256 record = .ok (sha256 record).val := by
  simp only [recordSha256, bind_ok, refuse_ok, exists_const, pure_ok, h, ne_eq, not_true_eq_false,
    not_false_eq_true, and_self]

/-- The pager yields the pages of the pending digests followed by the digests to come. -/
theorem buildFrom_eq {records : List Bytes} (hrec : ∀ r ∈ records, r.length = recordBytes)
    {pending : List Bytes} (hpending : pending.length < maxPageRecords) (first : ℤ) :
    buildFrom sha256 first pending.flatten pending.length records =
      .ok (pagesFrom sha256 first (pending ++ records.map fun r => (sha256 r).val)) := by
  induction records generalizing pending first with
  | nil =>
    rw [List.map_nil, List.append_nil]
    cases pending with
    | nil => rw [pagesFrom_nil]; rfl
    | cons d ds => rw [pagesFrom_short hpending (by simp)]; rfl
  | cons record records ih =>
    have hdigest := @recordSha256_ok sha256 record (hrec record (by simp))
    have hrest : ∀ r ∈ records, r.length = recordBytes := fun r hr => hrec r (by simp [hr])
    -- the page being filled after this record
    obtain ⟨filled, hfilled⟩ : ∃ filled, filled = pending ++ [(sha256 record).val] := ⟨_, rfl⟩
    have hflat : pending.flatten ++ (sha256 record).val = filled.flatten := by simp [hfilled]
    have hcount : pending.length + 1 = filled.length := by simp [hfilled]
    have hlist : pending ++ (record :: records).map (fun r => (sha256 r).val) =
        filled ++ records.map (fun r => (sha256 r).val) := by simp [hfilled]
    rw [hlist, buildFrom, bind_ok]
    refine ⟨_, hdigest, ?_⟩
    rw [hflat, hcount]
    by_cases hfull : filled.length = maxPageRecords
    · rw [if_pos hfull, bind_ok]
      have hpages := @ih hrest [] (by decide) (first + filled.length)
      refine ⟨_, by rw [← hpages, ← hcount]; push_cast; rfl, ?_⟩
      rw [pagesFrom_append hfull, ← hfull]
      rfl
    · rw [if_neg hfull]
      exact ih hrest (by omega) first

/-- What a page must satisfy by itself. -/
structure ValidPage (sha256 : Bytes → Digest) (p : ProofPage) : Prop where
  first_nonneg : 0 ≤ p.firstRecordIndex
  count_pos : 1 ≤ p.recordCount
  count_le : p.recordCount ≤ maxPageRecords
  stop_le : p.stop ≤ uint64Max
  hashes_length : (p.hashes.length : ℤ) = p.recordCount * hashBytes
  digest : pageDigest sha256 p.firstRecordIndex p.recordCount p.hashes = p.pageSha256

theorem validateProofPage_ok {p : ProofPage} {expected : ℤ} {hashes : List Bytes} :
    validateProofPage sha256 p (some expected) = .ok hashes ↔
      ValidPage sha256 p ∧ p.firstRecordIndex = expected ∧ frames hashBytes p.hashes = hashes := by
  simp only [validateProofPage, bind_ok, refuse_ok, exists_const, pure_ok, validateIndex,
    validateExpected, not_not, not_lt, ne_eq]
  constructor
  · rintro ⟨⟨hnonneg, -⟩, ⟨hpos, hle⟩, hstop, ⟨-, hfirst⟩, hlen, -, hdigest, hhashes⟩
    exact ⟨⟨hnonneg, hpos, hle, hstop, hlen, hdigest⟩, hfirst, hhashes⟩
  · rintro ⟨⟨hnonneg, hpos, hle, hstop, hlen, hdigest⟩, hfirst, hhashes⟩
    have hindex : p.firstRecordIndex ≤ uint64Max := by simp only [ProofPage.stop] at hstop; omega
    have hsha : p.pageSha256.length = hashBytes := by
      rw [← hdigest]
      exact (sha256 _).property
    exact ⟨⟨hnonneg, hindex⟩, ⟨hpos, hle⟩, hstop, ⟨hfirst ▸ ⟨hnonneg, hindex⟩, hfirst⟩, hlen, hsha,
      hdigest, hhashes⟩

/-- The page of at most 128 digests is valid. -/
theorem validPage_pageOf {digests : List Bytes} (hlen : ∀ d ∈ digests, d.length = hashBytes)
    {first : ℤ} (hfirst : 0 ≤ first) (hne : digests ≠ [])
    (hmax : digests.length ≤ maxPageRecords) (hstop : first + digests.length ≤ uint64Max) :
    ValidPage sha256 (pageOf sha256 first digests) where
  first_nonneg := hfirst
  count_pos := by have := List.length_pos_iff.mpr hne; simp only [pageOf, makePage]; omega
  count_le := by simpa [pageOf, makePage] using hmax
  stop_le := hstop
  hashes_length := by simp [pageOf, makePage, length_flatten_blocks hlen]
  digest := rfl

def ProofPage.span (p : ProofPage) : ℤ × ℤ := (p.firstRecordIndex, p.stop)

/-- The pages lie end to end over the records. -/
theorem tiles_pagesFrom (digests : List Bytes) (first : ℤ) :
    Tiles first ((pagesFrom sha256 first digests).map ProofPage.span) (first + digests.length) := by
  induction digests using page_induction generalizing first with
  | short digests h =>
    by_cases hne : digests = []
    · subst hne
      simp [pagesFrom_nil, Tiles]
    · have hpos := List.length_pos_iff.mpr hne
      rw [pagesFrom_short h hne]
      refine ⟨rfl, ?_, rfl⟩
      simp only [ProofPage.span, ProofPage.stop, pageOf, makePage]
      omega
  | full page rest hpage ih =>
    rw [pagesFrom_append hpage, List.map_cons]
    refine ⟨rfl, ?_, ?_⟩
    · simp [ProofPage.span, ProofPage.stop, pageOf, makePage, hpage, maxPageRecords]
    · have hrest := ih (first + maxPageRecords)
      have hstop : first + ((page ++ rest).length : ℤ) = first + maxPageRecords + rest.length := by
        rw [List.length_append, hpage]
        push_cast
        ring
      have hspan : (pageOf sha256 first page).span.2 = first + maxPageRecords := by
        simp [ProofPage.span, ProofPage.stop, pageOf, makePage, hpage]
      rw [hstop, hspan]
      exact hrest

theorem validPage_pagesFrom {digests : List Bytes} (hlen : ∀ d ∈ digests, d.length = hashBytes)
    {first : ℤ} (hfirst : 0 ≤ first) (hstop : first + digests.length ≤ uint64Max) :
    ∀ p ∈ pagesFrom sha256 first digests, ValidPage sha256 p := by
  induction digests using page_induction generalizing first with
  | short digests h =>
    by_cases hne : digests = []
    · subst hne
      simp [pagesFrom_nil]
    · rw [pagesFrom_short h hne]
      simpa using validPage_pageOf hlen hfirst hne h.le hstop
  | full page rest hpage ih =>
    have hne : page ≠ [] := by rintro rfl; simp [maxPageRecords] at hpage
    rw [List.length_append] at hstop
    rw [pagesFrom_append hpage]
    simp only [List.forall_mem_cons]
    constructor
    · apply validPage_pageOf (fun d hd => hlen d (by simp [hd])) hfirst hne hpage.le
      push_cast at hstop
      omega
    · apply ih (fun d hd => hlen d (by simp [hd])) (by omega)
      rw [hpage] at hstop
      push_cast at hstop
      omega

theorem flatten_groups (digests : List Bytes) : (groups digests).flatten = digests := by
  induction digests using page_induction with
  | short digests h =>
    by_cases hne : digests = []
    · subst hne
      simp [groups_nil]
    · simp [groups_short h hne]
  | full page rest hpage ih => rw [groups_append hpage, List.flatten_cons, ih]

/-- The encoder accepts valid pages that tile the records. -/
theorem packIndexFrom_ok {recordCount next : ℤ} {pages : List ProofPage}
    (hvalid : ∀ p ∈ pages, ValidPage sha256 p)
    (htiles : Tiles next (pages.map ProofPage.span) recordCount) :
    packIndexFrom sha256 recordCount next pages =
      .ok (pages.map fun p => packEntry p.entry).flatten := by
  induction pages generalizing next with
  | nil =>
    have hnext : next = recordCount := htiles
    simp only [packIndexFrom, bind_ok, refuse_ok, exists_const, pure_ok]
    exact ⟨by simpa using hnext, rfl⟩
  | cons page pages ih =>
    obtain ⟨hfirst, -, hrest⟩ := htiles
    have hle : page.stop ≤ recordCount := hrest.le
    have hnext : next + page.recordCount = page.stop := by
      rw [← hfirst]
      rfl
    have hpage := validateProofPage_ok.mpr ⟨hvalid page (by simp), hfirst, rfl⟩
    have hpacked := ih (fun p hp => hvalid p (by simp [hp])) hrest
    simp only [packIndexFrom, bind_ok, refuse_ok, exists_const, pure_ok]
    exact ⟨_, hpage, not_lt.mpr hle, _, by rw [hnext]; exact hpacked, by simp⟩

/-- What an index entry must satisfy for its encoding to be read back. -/
structure Encodable (e : IndexEntry) : Prop where
  first_nonneg : 0 ≤ e.first
  first_le : e.first ≤ uint64Max
  count_pos : 1 ≤ e.count
  count_le : e.count ≤ maxPageRecords
  digest : e.digest.length = hashBytes

theorem ValidPage.encodable {p : ProofPage} (h : ValidPage sha256 p) : Encodable p.entry where
  first_nonneg := h.first_nonneg
  first_le := by
    have hstop := h.stop_le
    have hpos := h.count_pos
    simp only [ProofPage.stop] at hstop
    simp only [ProofPage.entry]
    omega
  count_pos := h.count_pos
  count_le := h.count_le
  digest := by
    simp only [ProofPage.entry, ← h.digest, pageDigest]
    exact (sha256 _).property

theorem length_packEntry {e : IndexEntry} (h : Encodable e) :
    (packEntry e).length = entrySize := by
  simp [packEntry, entrySize, h.digest, hashBytes]

/-- The fields of an entry are where the decoder reads them. -/
theorem packEntry_fields {e : IndexEntry} (h : Encodable e) :
    field (packEntry e) 0 8 = toBytesBig 8 e.first.toNat ∧
      field (packEntry e) 8 2 = toBytesBig 2 e.count.toNat ∧ field (packEntry e) 10 32 = e.digest := by
  refine ⟨?_, ?_, ?_⟩
  · simp [packEntry, field_append_left]
  · simp [packEntry, field_append_left, field_append_right]
  · have hdigest : field e.digest 0 32 = e.digest := field_self h.digest
    simp [packEntry, field_append_right, hdigest]

theorem unpackEntry_packEntry {e : IndexEntry} (h : Encodable e) :
    unpackEntry (packEntry e) = e := by
  have hfirst := h.first_le
  have hcount := h.count_le
  have hpos := h.count_pos
  simp only [uint64Max] at hfirst
  simp only [maxPageRecords] at hcount
  have first : fromBytesBig (toBytesBig 8 e.first.toNat) = e.first.toNat :=
    fromBytesBig_toBytesBig (by omega)
  have count : fromBytesBig (toBytesBig 2 e.count.toNat) = e.count.toNat :=
    fromBytesBig_toBytesBig (by omega)
  obtain ⟨h₁, h₂, h₃⟩ := packEntry_fields h
  rw [unpackEntry, h₁, h₂, h₃, first, count, Int.toNat_of_nonneg h.first_nonneg,
    Int.toNat_of_nonneg (by omega)]

/-- The decoder reads back the entries of pages that tile the records. -/
theorem unpackIndexFrom_pack {recordCount next : ℤ} {entries : List IndexEntry}
    (hentries : ∀ e ∈ entries, Encodable e)
    (htiles : Tiles next (entries.map IndexEntry.span) recordCount) :
    unpackIndexFrom recordCount next (entries.map packEntry) = .ok entries := by
  induction entries generalizing next with
  | nil =>
    have hnext : next = recordCount := htiles
    simp only [List.map_nil, unpackIndexFrom, bind_ok, refuse_ok, exists_const, pure_ok]
    exact ⟨by simpa using hnext, trivial⟩
  | cons e entries ih =>
    obtain ⟨hfirst, -, hrest⟩ := htiles
    have he := hentries e (by simp)
    have hread := unpackEntry_packEntry he
    have hnext : next + e.count = e.span.2 := by
      rw [← hfirst]
      rfl
    have hle : e.first + e.count ≤ recordCount := hrest.le
    have hentry : ¬ (e.first ≠ next ∨ ¬ (1 ≤ e.count ∧ e.count ≤ maxPageRecords) ∨
        recordCount < e.first + e.count) := by
      push Not
      exact ⟨hfirst, ⟨he.count_pos, he.count_le⟩, hle⟩
    have hunpacked := ih (fun e he => hentries e (by simp [he])) hrest
    simp only [List.map_cons, unpackIndexFrom, bind_ok, refuse_ok, exists_const, pure_ok, hread]
    exact ⟨hentry, entries, by rw [hnext]; exact hunpacked, rfl⟩

/-- Whatever the decoder accepts tiles the records. -/
theorem tiles_of_unpackIndexFrom {recordCount next : ℤ} {blocks : List Bytes}
    {entries : List IndexEntry} (h : unpackIndexFrom recordCount next blocks = .ok entries) :
    Tiles next (entries.map IndexEntry.span) recordCount := by
  induction blocks generalizing next entries with
  | nil =>
    simp only [unpackIndexFrom, bind_ok, refuse_ok, exists_const, pure_ok, ne_eq, not_not] at h
    obtain ⟨hnext, rfl⟩ := h
    exact hnext
  | cons frame blocks ih =>
    simp only [unpackIndexFrom, bind_ok, refuse_ok, exists_const, pure_ok] at h
    obtain ⟨hentry, rest, hrest, rfl⟩ := h
    push Not at hentry
    obtain ⟨hfirst, ⟨hpos, -⟩, -⟩ := hentry
    refine ⟨hfirst, ?_, ?_⟩
    · simp only [IndexEntry.span]
      omega
    · have htiles := ih hrest
      rwa [← hfirst] at htiles

/-- The pages of a list of records together with the digests validated from them. -/
structure Paged (sha256 : Bytes → Digest) (records : List Bytes) (pages : List ProofPage)
    (hashes : List (List Bytes)) : Prop where
  length : hashes.length = pages.length
  validated : ∀ (i : ℕ) (page : ProofPage), pages[i]? = some page → ∃ digests,
    hashes[i]? = some digests ∧ validateProofPage sha256 page
      (some ((pages.take i).map ProofPage.recordCount).sum) = .ok digests
  full : ∀ (i : ℕ) (page : ProofPage), i + 1 < pages.length → pages[i]? = some page →
    page.recordCount = maxPageRecords
  digests : hashes.flatten = records.map fun r => (sha256 r).val
  located : ∀ (i : ℕ) (record : Bytes), records[i]? = some record → ∃ digests,
    hashes[i / maxPageRecords]? = some digests ∧
      digests[i % maxPageRecords]? = some (sha256 record).val
  indexed : ∃ blob, packPageIndex sha256 pages records.length = .ok blob ∧
    unpackPageIndex blob records.length = .ok (pages.map ProofPage.entry)

/-- In a tiling each page starts after the records of the pages before it. -/
theorem running_index {next recordCount : ℤ} {pages : List ProofPage}
    (h : Tiles next (pages.map ProofPage.span) recordCount) {i : ℕ} {page : ProofPage}
    (hi : pages[i]? = some page) :
    page.firstRecordIndex = next + ((pages.take i).map ProofPage.recordCount).sum := by
  induction pages generalizing next i with
  | nil => simp at hi
  | cons p pages ih =>
    obtain ⟨hfirst, -, hrest⟩ := h
    cases i with
    | zero =>
      obtain rfl : p = page := by simpa using hi
      simpa [ProofPage.span] using hfirst
    | succ i =>
      have hstart := ih hrest (by simpa using hi)
      rw [hstart, List.take_succ_cons, List.map_cons, List.sum_cons, ← hfirst]
      simp only [ProofPage.span, ProofPage.stop]
      ring

theorem getElem?_pagesFrom {first : ℤ} {digests : List Bytes} {i : ℕ} {page : ProofPage}
    (h : (pagesFrom sha256 first digests)[i]? = some page) : i < pageCount digests.length ∧
      page = pageOf sha256 (first + (i * maxPageRecords : ℕ)) (group digests i) := by
  obtain ⟨hi, hpage⟩ := List.getElem?_eq_some_iff.mp h
  simp only [pagesFrom, List.getElem_map, List.getElem_range] at hpage
  exact ⟨by simpa [pagesFrom] using hi, hpage.symm⟩

theorem getElem?_groups {digests : List Bytes} {i : ℕ} (h : i < pageCount digests.length) :
    (groups digests)[i]? = some (group digests i) := by
  simp [groups, h]

/-- Digest `i` stands in group `i / 128` at place `i % 128`. -/
theorem getElem?_group {digests : List Bytes} {i : ℕ} {d : Bytes} (h : digests[i]? = some d) :
    i / maxPageRecords < pageCount digests.length ∧
      (group digests (i / maxPageRecords))[i % maxPageRecords]? = some d := by
  obtain ⟨hi, -⟩ := List.getElem?_eq_some_iff.mp h
  constructor
  · simp only [pageCount, maxPageRecords]
    omega
  · have hidx : i / maxPageRecords * maxPageRecords + i % maxPageRecords = i :=
      Nat.div_add_mod' i maxPageRecords
    rw [group, List.getElem?_take_of_lt (Nat.mod_lt i (by decide)), List.getElem?_drop, hidx, h]

theorem length_group_of_next {digests : List Bytes} {i : ℕ}
    (h : i + 1 < pageCount digests.length) : (group digests i).length = maxPageRecords := by
  simp only [pageCount, maxPageRecords] at h
  simp only [group, List.length_take, List.length_drop, maxPageRecords]
  omega

/-- The index of valid pages that tile the records packs and unpacks. -/
theorem index_roundtrip {recordCount : ℤ} {pages : List ProofPage}
    (hvalid : ∀ p ∈ pages, ValidPage sha256 p)
    (htiles : Tiles 0 (pages.map ProofPage.span) recordCount) (hmax : recordCount ≤ uint64Max) :
    ∃ blob, packPageIndex sha256 pages recordCount = .ok blob ∧
      unpackPageIndex blob recordCount = .ok (pages.map ProofPage.entry) := by
  obtain ⟨entries, hentries⟩ : ∃ entries, entries = pages.map ProofPage.entry := ⟨_, rfl⟩
  have hblob : (pages.map fun p => packEntry p.entry) = entries.map packEntry := by
    simp [hentries]
  have hencodable : ∀ e ∈ entries, Encodable e := by
    simp only [hentries, List.forall_mem_map]
    exact fun p hp => (hvalid p hp).encodable
  have hspans : entries.map IndexEntry.span = pages.map ProofPage.span := by
    simp only [hentries, List.map_map]
    rfl
  have hframes : ∀ b ∈ entries.map packEntry, b.length = entrySize := by
    simp only [List.forall_mem_map]
    exact fun e he => length_packEntry (hencodable e he)
  have hcount : validateCount recordCount = .ok () := validateCount_ok.mpr ⟨htiles.le, hmax⟩
  refine ⟨(entries.map packEntry).flatten, ?_, ?_⟩
  · rw [packPageIndex, bind_ok, ← hblob]
    exact ⟨(), hcount, packIndexFrom_ok hvalid htiles⟩
  · simp only [unpackPageIndex, bind_ok, refuse_ok, exists_const, ne_eq, not_not]
    refine ⟨(), hcount, length_flatten_mod hframes, ?_⟩
    rw [frames_flatten (by decide) hframes, ← hentries]
    exact unpackIndexFrom_pack hencodable (hspans ▸ htiles)

/-- The pages of records have every property of the listing. -/
theorem paged_pagesFrom {records : List Bytes} (hlen : (records.length : ℤ) ≤ uint64Max) :
    Paged sha256 records (pagesFrom sha256 0 (records.map fun r => (sha256 r).val))
      (groups (records.map fun r => (sha256 r).val)) := by
  obtain ⟨digests, hdigests⟩ : ∃ digests, digests = records.map fun r => (sha256 r).val := ⟨_, rfl⟩
  have hcount : digests.length = records.length := by simp [hdigests]
  have hsize : ∀ d ∈ digests, d.length = hashBytes := by
    simp only [hdigests, List.forall_mem_map]
    exact fun r _ => (sha256 r).property
  have hvalid : ∀ p ∈ pagesFrom sha256 0 digests, ValidPage sha256 p :=
    validPage_pagesFrom hsize le_rfl (by omega)
  have htiles : Tiles 0 ((pagesFrom sha256 0 digests).map ProofPage.span) records.length := by
    have h := @tiles_pagesFrom sha256 digests 0
    rwa [zero_add, hcount] at h
  rw [← hdigests]
  constructor
  case length => simp [groups, pagesFrom]
  case validated =>
    intro i page hpage
    obtain ⟨hi, rfl⟩ := getElem?_pagesFrom hpage
    refine ⟨group digests i, getElem?_groups hi, validateProofPage_ok.mpr ⟨?_, ?_, ?_⟩⟩
    · exact hvalid _ (List.mem_of_getElem? hpage)
    · rw [running_index htiles hpage, zero_add]
    · apply frames_flatten (by decide)
      intro d hd
      exact hsize d (List.mem_of_mem_drop (List.mem_of_mem_take hd))
  case full =>
    intro i page hi hpage
    obtain ⟨-, rfl⟩ := getElem?_pagesFrom hpage
    have hnext : i + 1 < pageCount digests.length := by simpa [pagesFrom] using hi
    simp [pageOf, makePage, length_group_of_next hnext]
  case digests => rw [flatten_groups, hdigests]
  case located =>
    intro i record hrecord
    have hdigest : digests[i]? = some (sha256 record).val := by simp [hdigests, hrecord]
    obtain ⟨hi, hplace⟩ := getElem?_group hdigest
    exact ⟨_, getElem?_groups hi, hplace⟩
  case indexed => exact index_roundtrip hvalid htiles hlen

/-- The pages of any records locate each of them once, and every accepted index partitions the
records. -/
theorem proof_pages_locate (sha256 : Bytes → Digest) (records : List Bytes)
    (hrec : ∀ r ∈ records, r.length = recordBytes) (hlen : (records.length : ℤ) ≤ uint64Max) :
    (∃ pages hashes, buildProofPages sha256 records = .ok pages ∧
      Paged sha256 records pages hashes) ∧
    ∀ blob entries, unpackPageIndex blob records.length = .ok entries →
      Tiles 0 (entries.map IndexEntry.span) (records.length : ℤ) ∧
        ∀ x : ℤ, 0 ≤ x → x < records.length → ∃! i : ℕ, ∃ t : ℤ × ℤ,
          (entries.map IndexEntry.span)[i]? = some t ∧ t.1 ≤ x ∧ x < t.2 := by
  constructor
  · have hbuild := @buildFrom_eq sha256 records hrec [] (by decide) 0
    exact ⟨_, _, hbuild, paged_pagesFrom hlen⟩
  · intro blob entries h
    simp only [unpackPageIndex, bind_ok, refuse_ok, exists_const] at h
    obtain ⟨-, -, -, h⟩ := h
    have htiles := tiles_of_unpackIndexFrom h
    exact ⟨htiles, fun x hx hlt => htiles.existsUnique hx hlt⟩

/-- SHA-256 with the digest type of the pages. -/
def hashlibSha256 (message : Bytes) : Digest := Sha256.digest message

/-- The index of a page of 128 records and one of a single record. -/
def twoPageIndex : List IndexEntry :=
  [⟨0, 128, (hashlibSha256 [0]).val⟩, ⟨128, 1, (hashlibSha256 [1]).val⟩]

theorem unpackPageIndex_twoPages :
    unpackPageIndex (twoPageIndex.map packEntry).flatten 129 = .ok twoPageIndex := by
  decide +kernel

/-- 129 records lie on two pages, and the index of two pages partitions them. -/
theorem proof_pages_locate_two_pages :
    (∃ pages hashes, buildProofPages hashlibSha256 (List.replicate 129 (List.replicate 444 0)) =
        .ok pages ∧
      Paged hashlibSha256 (List.replicate 129 (List.replicate 444 0)) pages hashes) ∧
    Tiles 0 (twoPageIndex.map IndexEntry.span) (129 : ℤ) ∧
    ∃! i : ℕ, ∃ t : ℤ × ℤ,
      (twoPageIndex.map IndexEntry.span)[i]? = some t ∧ t.1 ≤ 128 ∧ 128 < t.2 := by
  have hrec : ∀ r ∈ List.replicate 129 (List.replicate 444 (0 : UInt8)), r.length = recordBytes := by
    intro r hr
    rw [List.eq_of_mem_replicate hr, List.length_replicate]
    rfl
  have hcount : ((List.replicate 129 (List.replicate 444 (0 : UInt8))).length : ℤ) = 129 := by
    rw [List.length_replicate]
    rfl
  obtain ⟨hpages, hindex⟩ := proof_pages_locate hashlibSha256 _ hrec (by rw [hcount]; decide)
  rw [hcount] at hindex
  obtain ⟨htiles, hlocated⟩ := hindex _ _ unpackPageIndex_twoPages
  exact ⟨hpages, htiles, hlocated 128 (by decide) (by decide)⟩

end ProofPages
