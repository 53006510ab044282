import OmiCollector.SpanCover

/-! Walks along sorted, disjoint runs. `subtract` collects what the runs leave uncovered of an
interval, and `advance` moves a cursor over the runs that touch it. Both check every covered
part they pass, and both stop at the first run beyond their interval. -/
namespace SpanWalk

open SpanCover

variable {κ ε : Type}

/-- Runs in order, none of them empty. -/
structure SortedRuns (runs : List (Span × κ)) : Prop where
  ordered : runs.Pairwise fun a b => a.1.stop ≤ b.1.start
  nonempty : ∀ r ∈ runs, r.1.start < r.1.stop

def CoveredBy (runs : List (Span × κ)) (x : ℕ) : Prop := ∃ r ∈ runs, r.1.Contains x

/-- One walk over the runs of one owner, from a cursor and the spans found uncovered so far. -/
def subtract (stop : ℕ) (check : κ → Span → Except ε Unit) :
    List (Span × κ) → ℕ × List Span → Except ε (ℕ × List Span)
  | [], state => .ok state
  | (run, k) :: rest, (cursor, uncovered) =>
    if run.stop ≤ cursor then subtract stop check rest (cursor, uncovered)
    else if stop ≤ run.start then .ok (cursor, uncovered)
    else
      let found := if cursor < run.start then uncovered ++ [⟨cursor, run.start⟩] else uncovered
      let reached := max cursor run.start
      let next := min run.stop stop
      if reached < next then
        match check k ⟨reached, next⟩ with
        | .error e => .error e
        | .ok _ => if next = stop then .ok (next, found) else subtract stop check rest (next, found)
      else if reached = stop then .ok (reached, found)
      else subtract stop check rest (reached, found)

/-- The uncovered spans of `[start, stop)` after walks over several owners. -/
def subtractAll (start stop : ℕ) (check : κ → Span → Except ε Unit)
    (owners : List (List (Span × κ))) : Except ε (List Span) :=
  match owners.foldlM (fun state runs => subtract stop check runs state) (start, []) with
  | .error e => .error e
  | .ok (cursor, uncovered) =>
    .ok (if cursor < stop then uncovered ++ [⟨cursor, stop⟩] else uncovered)

/-- Move a cursor over the runs that continue it, up to `stop`. -/
def advance (stop : ℕ) (check : κ → Span → Except ε Unit) : List (Span × κ) → ℕ → Except ε ℕ
  | [], cursor => .ok cursor
  | (run, k) :: rest, cursor =>
    if run.stop ≤ cursor then advance stop check rest cursor
    else if cursor < run.start then .ok cursor
    else match check k ⟨cursor, min run.stop stop⟩ with
      | .error e => .error e
      | .ok _ =>
        if min run.stop stop = stop then .ok stop
        else advance stop check rest (min run.stop stop)

theorem coveredBy_append {runs more : List (Span × κ)} {x : ℕ} :
    CoveredBy (runs ++ more) x ↔ CoveredBy runs x ∨ CoveredBy more x := by
  simp only [CoveredBy, List.mem_append, or_and_right, exists_or]

theorem coveredBy_singleton {r : Span × κ} {x : ℕ} : CoveredBy [r] x ↔ r.1.Contains x := by
  simp [CoveredBy]

theorem SortedRuns.append_left {runs more : List (Span × κ)} (h : SortedRuns (runs ++ more)) :
    SortedRuns runs :=
  ⟨(List.pairwise_append.mp h.ordered).1, fun r hr => h.nonempty r (List.mem_append_left _ hr)⟩

/-- Every earlier run ends before every later one starts. -/
theorem SortedRuns.before {runs more : List (Span × κ)} (h : SortedRuns (runs ++ more))
    {r s : Span × κ} (hr : r ∈ runs) (hs : s ∈ more) : r.1.stop ≤ s.1.start :=
  (List.pairwise_append.mp h.ordered).2.2 r hr s hs

/-- What a subtraction has established when it stands at `cursor`. -/
structure Walked (start stop : ℕ) (check : κ → Span → Except ε Unit) (runs : List (Span × κ))
    (cursor : ℕ) (uncovered : List Span) : Prop where
  start_le : start ≤ cursor
  le_stop : cursor ≤ stop
  origin : cursor = start ∨ ∃ r ∈ runs, cursor ≤ r.1.stop
  ordered : uncovered.Pairwise fun a b => a.stop ≤ b.start
  inside : ∀ s ∈ uncovered, s.start < s.stop ∧ start ≤ s.start ∧ s.stop ≤ cursor
  covers : ∀ x, Covers uncovered x ↔ start ≤ x ∧ x < cursor ∧ ¬ CoveredBy runs x
  beyond : ∀ x, cursor ≤ x → x < stop → ¬ CoveredBy runs x
  checked : ∀ x, start ≤ x → x < stop → ∀ r ∈ runs, r.1.Contains x →
    ∃ s : Span, check r.2 s = .ok () ∧ s.Contains x ∧ s.Inside r.1 ∧ s.Inside ⟨start, stop⟩

theorem walked_start {start stop : ℕ} {check : κ → Span → Except ε Unit} (h : start ≤ stop) :
    Walked start stop check [] start [] := by
  refine ⟨le_rfl, h, .inl rfl, by simp, by simp, ?_, by simp [CoveredBy], by simp⟩
  intro x
  simp only [Covers, List.not_mem_nil, false_and, exists_false, CoveredBy, not_false_eq_true,
    and_true, false_iff]
  omega

section Step

variable {start stop cursor : ℕ} {check : κ → Span → Except ε Unit} {runs : List (Span × κ)}
  {uncovered : List Span}

/-- A run behind the cursor, or beyond the interval, changes nothing. -/
theorem Walked.skip (h : Walked start stop check runs cursor uncovered) {more : List (Span × κ)}
    (hout : ∀ r ∈ more, ∀ x, r.1.Contains x → start ≤ x → x < stop → False) :
    Walked start stop check (runs ++ more) cursor uncovered := by
  have hmore : ∀ x, start ≤ x → x < stop → (CoveredBy (runs ++ more) x ↔ CoveredBy runs x) := by
    intro x hx hs
    rw [coveredBy_append]
    constructor
    · intro hc
      rcases hc with hc | ⟨r, hr, hrx⟩
      · exact hc
      · exact absurd hs (fun hs => hout r hr x hrx hx hs)
    · exact .inl
  refine ⟨h.start_le, h.le_stop, ?_, h.ordered, h.inside, ?_, ?_, ?_⟩
  · rcases h.origin with ho | ⟨r, hr, hle⟩
    · exact .inl ho
    · exact .inr ⟨r, List.mem_append_left _ hr, hle⟩
  · intro x
    rw [h.covers]
    constructor
    · intro hx
      exact ⟨hx.1, hx.2.1, fun hc => hx.2.2 ((hmore x hx.1 (hx.2.1.trans_le h.le_stop)).mp hc)⟩
    · intro hx
      exact ⟨hx.1, hx.2.1, fun hc => hx.2.2 ((hmore x hx.1 (hx.2.1.trans_le h.le_stop)).mpr hc)⟩
  · intro x hx hs hc
    exact h.beyond x hx hs ((hmore x (h.start_le.trans hx) hs).mp hc)
  · intro x hx hs r hr hrx
    rcases List.mem_append.mp hr with hr | hr
    · exact h.checked x hx hs r hr hrx
    · exact absurd hs (fun hs => hout r hr x hrx hx hs)

/-- Passing a run that reaches into the interval. -/
theorem Walked.pass (h : Walked start stop check runs cursor uncovered) {run : Span} {k : κ}
    (hsorted : SortedRuns (runs ++ [(run, k)])) (hahead : cursor < run.stop)
    (hinside : run.start < stop) (hcursor : cursor < stop)
    (hcheck : check k ⟨max cursor run.start, min run.stop stop⟩ = .ok ()) :
    Walked start stop check (runs ++ [(run, k)]) (min run.stop stop)
      (if cursor < run.start then uncovered ++ [⟨cursor, run.start⟩] else uncovered) := by
  have hne : run.start < run.stop := hsorted.nonempty (run, k) (by simp)
  have hafter : ∀ r ∈ runs, r.1.stop ≤ run.start := fun r hr =>
    hsorted.before hr (List.mem_singleton_self (run, k))
  have hstart := h.start_le
  -- Before this run the cursor is at the start or behind an earlier run.
  have hearlier : ∀ x, run.start ≤ x → ¬ CoveredBy runs x := by
    intro x hx hc
    obtain ⟨r, hr, hrx⟩ := hc
    have := hafter r hr
    have := hrx.2
    omega
  have horigin : start ≤ run.start ∨ cursor = start := by
    rcases h.origin with ho | ⟨r, hr, hle⟩
    · exact .inr ho
    · have := hafter r hr
      exact .inl (by omega)
  refine ⟨by omega, by omega, .inr ⟨(run, k), by simp, by simp⟩, ?_, ?_, ?_, ?_, ?_⟩
  · split
    · rw [List.pairwise_append]
      refine ⟨h.ordered, by simp, ?_⟩
      intro a ha b hb
      obtain rfl : b = ⟨cursor, run.start⟩ := by simpa using hb
      exact (h.inside a ha).2.2
    · exact h.ordered
  · intro s hs
    split at hs
    · rcases List.mem_append.mp hs with hs | hs
      · have := h.inside s hs
        omega
      · obtain rfl : s = ⟨cursor, run.start⟩ := by simpa using hs
        simp only
        omega
    · have := h.inside s hs
      omega
  · intro x
    rw [coveredBy_append, coveredBy_singleton]
    simp only [Span.Contains, not_or, not_and, not_lt]
    have hold := h.covers x
    by_cases hgap : cursor < run.start
    · rw [if_pos hgap]
      have hsplit : Covers (uncovered ++ [⟨cursor, run.start⟩]) x ↔
          Covers uncovered x ∨ (cursor ≤ x ∧ x < run.start) := by
        simp [Covers, or_and_right, exists_or, Span.Contains]
      rw [hsplit, hold]
      constructor
      · intro hx
        rcases hx with ⟨h1, h2, h3⟩ | ⟨h1, h2⟩
        · exact ⟨h1, by omega, h3, by omega⟩
        · exact ⟨by omega, by omega, h.beyond x h1 (by omega), by omega⟩
      · intro hx
        obtain ⟨h1, h2, h3, h4⟩ := hx
        by_cases hxc : x < cursor
        · exact .inl ⟨h1, hxc, h3⟩
        · exact .inr ⟨by omega, by omega⟩
    · rw [if_neg hgap, hold]
      constructor
      · intro hx
        obtain ⟨h1, h2, h3⟩ := hx
        refine ⟨h1, by omega, h3, fun h4 => ?_⟩
        rcases horigin with ho | ho
        · -- The cursor lies inside this run, so it stands at the start.
          rcases h.origin with hs | ⟨r, hr, hle⟩
          · omega
          · have := hafter r hr
            omega
        · omega
      · intro hx
        obtain ⟨h1, h2, h3, h4⟩ := hx
        by_cases hxr : run.start ≤ x
        · have := h4 hxr
          omega
        · exact ⟨h1, by omega, h3⟩
  · intro x hx hs hc
    rw [coveredBy_append, coveredBy_singleton] at hc
    rcases hc with hc | hc
    · exact hearlier x (by omega) hc
    · have hstop : x < run.stop := hc.2
      omega
  · intro x hx hs r hr hrx
    rcases List.mem_append.mp hr with hr | hr
    · exact h.checked x hx hs r hr hrx
    · obtain rfl : r = (run, k) := by simpa using hr
      refine ⟨_, hcheck, ?_⟩
      have h1 := hrx.1
      have h2 := hrx.2
      simp only [Span.Contains, Span.Inside] at *
      rcases h.origin with ho | ⟨r, hr, hle⟩
      · omega
      · have := hafter r hr
        omega

/-- Runs that all start at or past the end of the interval are out of reach. -/
theorem SortedRuns.out_of_reach {run : Span} {k : κ} {rest : List (Span × κ)}
    (h : SortedRuns ((run, k) :: rest)) (hstop : stop ≤ run.start) :
    ∀ r ∈ (run, k) :: rest, ∀ x, r.1.Contains x → start ≤ x → x < stop → False := by
  intro r hr x hrx _ hx
  have hlow : run.start ≤ r.1.start := by
    rcases List.mem_cons.mp hr with rfl | hr
    · exact le_rfl
    · have h1 := (List.pairwise_cons.mp h.ordered).1 r hr
      have h2 := h.nonempty (run, k) (by simp)
      simp only at h1 h2
      omega
  have := hrx.1
  omega

theorem SortedRuns.tail_of_append {r : Span × κ} {more : List (Span × κ)}
    (h : SortedRuns (runs ++ r :: more)) : SortedRuns (r :: more) :=
  ⟨(List.pairwise_append.mp h.ordered).2.1, fun s hs => h.nonempty s (List.mem_append_right _ hs)⟩

theorem subtract_walked {more : List (Span × κ)} {cursor' : ℕ} {uncovered' : List Span}
    (hsorted : SortedRuns (runs ++ more)) (h : Walked start stop check runs cursor uncovered)
    (hs : subtract stop check more (cursor, uncovered) = .ok (cursor', uncovered')) :
    Walked start stop check (runs ++ more) cursor' uncovered' := by
  induction more generalizing runs cursor uncovered with
  | nil =>
    obtain ⟨rfl, rfl⟩ : cursor = cursor' ∧ uncovered = uncovered' := by
      simpa [subtract] using hs
    rw [List.append_nil]
    exact h
  | cons r rest ih =>
    obtain ⟨run, k⟩ := r
    have hone : SortedRuns (runs ++ [(run, k)] ++ rest) := by
      rw [List.append_assoc]
      exact hsorted
    have hassoc : runs ++ (run, k) :: rest = runs ++ [(run, k)] ++ rest := by simp
    have hafter : ∀ r ∈ runs, r.1.stop ≤ run.start := fun r hr =>
      hsorted.before hr (List.mem_cons_self ..)
    unfold subtract at hs
    split at hs
    · rename_i hbehind
      rw [hassoc]
      refine ih hone (h.skip ?_) hs
      intro r hr x hrx hx _
      obtain rfl : r = (run, k) := by simpa using hr
      have h1 : run.start ≤ x := hrx.1
      have h2 : x < run.stop := hrx.2
      rcases h.origin with ho | ⟨r, hr, hle⟩
      · omega
      · have := hafter r hr
        omega
    · rename_i hahead
      split at hs
      · rename_i hbeyond
        obtain ⟨rfl, rfl⟩ : cursor = cursor' ∧ uncovered = uncovered' := by simpa using hs
        exact h.skip (hsorted.tail_of_append.out_of_reach hbeyond)
      · rename_i hinside
        have hne : run.start < run.stop := hsorted.nonempty (run, k) (by simp)
        have hle := h.le_stop
        simp only at hs
        by_cases hcursor : cursor < stop
        · rw [if_pos (by omega)] at hs
          cases hcheck : check k ⟨max cursor run.start, min run.stop stop⟩ with
          | error e => simp [hcheck] at hs
          | ok u =>
            simp only [hcheck] at hs
            have hpass := h.pass hone.append_left (by omega) (by omega) hcursor hcheck
            split at hs
            · rename_i hstop
              obtain ⟨rfl, rfl⟩ := Prod.mk.inj (Except.ok.inj hs)
              rw [hassoc]
              apply hpass.skip
              intro r hr x hrx _ hx
              have h1 := hone.before (List.mem_append_right _ (List.mem_singleton_self _)) hr
              have h2 : r.1.start ≤ x := hrx.1
              simp only at h1
              omega
            · rw [hassoc]
              exact ih hone hpass hs
        · -- The interval was empty from the start.
          rw [if_neg (by omega), if_pos (by omega)] at hs
          obtain ⟨rfl, rfl⟩ := Prod.mk.inj (Except.ok.inj hs)
          rw [if_neg (by omega), max_eq_left (by omega)]
          apply h.skip
          intro r _ x _ hx hx'
          rcases h.origin with ho | ⟨q, hq, hle'⟩
          · omega
          · have := hafter q hq
            omega

end Step

theorem foldlM_walked {start stop : ℕ} {check : κ → Span → Except ε Unit}
    {owners : List (List (Span × κ))} {runs : List (Span × κ)} {state state' : ℕ × List Span}
    (hsorted : SortedRuns (runs ++ owners.flatten))
    (h : Walked start stop check runs state.1 state.2)
    (hs : owners.foldlM (fun state runs => subtract stop check runs state) state = .ok state') :
    Walked start stop check (runs ++ owners.flatten) state'.1 state'.2 := by
  induction owners generalizing runs state with
  | nil =>
    obtain rfl : state = state' := by simpa [pure, Except.pure] using hs
    simpa using h
  | cons owner owners ih =>
    rw [List.foldlM_cons] at hs
    cases hone : subtract stop check owner state with
    | error e => simp [hone, bind, Except.bind] at hs
    | ok next =>
      simp only [hone, bind, Except.bind] at hs
      rw [List.flatten_cons, ← List.append_assoc] at hsorted ⊢
      exact ih hsorted (subtract_walked hsorted.append_left h hone) hs

/-- What is left uncovered by all owners, in order and without empty spans. -/
structure Uncovered (start stop : ℕ) (check : κ → Span → Except ε Unit) (runs : List (Span × κ))
    (spans : List Span) : Prop where
  ordered : spans.Pairwise fun a b => a.stop ≤ b.start
  inside : ∀ s ∈ spans, s.start < s.stop ∧ start ≤ s.start ∧ s.stop ≤ stop
  covers : ∀ x, Covers spans x ↔ start ≤ x ∧ x < stop ∧ ¬ CoveredBy runs x
  checked : ∀ x, start ≤ x → x < stop → ∀ r ∈ runs, r.1.Contains x →
    ∃ s : Span, check r.2 s = .ok () ∧ s.Contains x ∧ s.Inside r.1 ∧ s.Inside ⟨start, stop⟩

theorem subtractAll_spec {start stop : ℕ} {check : κ → Span → Except ε Unit}
    {owners : List (List (Span × κ))} {spans : List Span} (hle : start ≤ stop)
    (hsorted : SortedRuns owners.flatten)
    (hs : subtractAll start stop check owners = .ok spans) :
    Uncovered start stop check owners.flatten spans := by
  unfold subtractAll at hs
  split at hs
  · cases hs
  · rename_i cursor uncovered hfold
    have hwalk : Walked start stop check ([] ++ owners.flatten) cursor uncovered :=
      foldlM_walked (by simpa using hsorted) (walked_start hle) hfold
    rw [List.nil_append] at hwalk
    obtain rfl := Except.ok.inj hs
    have h1 := hwalk.start_le
    have h2 := hwalk.le_stop
    by_cases hlast : cursor < stop
    · rw [if_pos hlast]
      refine ⟨?_, ?_, ?_, hwalk.checked⟩
      · rw [List.pairwise_append]
        refine ⟨hwalk.ordered, by simp, ?_⟩
        intro a ha b hb
        obtain rfl : b = ⟨cursor, stop⟩ := by simpa using hb
        exact (hwalk.inside a ha).2.2
      · intro s hs
        rcases List.mem_append.mp hs with hs | hs
        · have := hwalk.inside s hs
          omega
        · obtain rfl : s = ⟨cursor, stop⟩ := by simpa using hs
          simp only
          omega
      · intro x
        have hsplit : Covers (uncovered ++ [⟨cursor, stop⟩]) x ↔
            Covers uncovered x ∨ (cursor ≤ x ∧ x < stop) := by
          simp [Covers, or_and_right, exists_or, Span.Contains]
        rw [hsplit, hwalk.covers]
        constructor
        · intro hx
          rcases hx with ⟨h3, h4, h5⟩ | ⟨h3, h4⟩
          · exact ⟨h3, h4.trans hlast, h5⟩
          · exact ⟨h1.trans h3, h4, hwalk.beyond x h3 h4⟩
        · intro hx
          by_cases hxc : x < cursor
          · exact .inl ⟨hx.1, hxc, hx.2.2⟩
          · exact .inr ⟨by omega, hx.2.1⟩
    · rw [if_neg hlast]
      have hcs : cursor = stop := by omega
      subst hcs
      exact ⟨hwalk.ordered, hwalk.inside, hwalk.covers, hwalk.checked⟩

/-- A cursor passes only covered sequences, and stops at the end or where nothing covers it. -/
theorem advance_spec {stop : ℕ} {check : κ → Span → Except ε Unit} {runs : List (Span × κ)}
    {cursor cursor' : ℕ} (hsorted : SortedRuns runs) (hle : cursor ≤ stop)
    (hs : advance stop check runs cursor = .ok cursor') :
    cursor ≤ cursor' ∧ cursor' ≤ stop ∧
      (∀ x, cursor ≤ x → x < cursor' →
        ∃ r ∈ runs, r.1.Contains x ∧ ∃ s : Span, check r.2 s = .ok () ∧ s.Contains x ∧
          s.Inside r.1 ∧ s.Inside ⟨cursor, stop⟩) ∧
      (cursor' = stop ∨ ¬ CoveredBy runs cursor') := by
  induction runs generalizing cursor with
  | nil =>
    obtain rfl : cursor = cursor' := by simpa [advance] using hs
    exact ⟨le_rfl, hle, fun x h1 h2 => by omega, .inr (by simp [CoveredBy])⟩
  | cons r rest ih =>
    obtain ⟨run, k⟩ := r
    have hrest : SortedRuns rest :=
      ⟨(List.pairwise_cons.mp hsorted.ordered).2,
        fun r hr => hsorted.nonempty r (List.mem_cons_of_mem _ hr)⟩
    have hne : run.start < run.stop := hsorted.nonempty (run, k) (by simp)
    have hafter : ∀ r ∈ rest, run.stop ≤ r.1.start := fun r hr =>
      (List.pairwise_cons.mp hsorted.ordered).1 r hr
    -- A point past this run that the rest does not cover is not covered at all.
    have hcons : ∀ {c}, run.stop ≤ c → (c = stop ∨ ¬ CoveredBy rest c) →
        (c = stop ∨ ¬ CoveredBy ((run, k) :: rest) c) := by
      intro c hc hor
      rcases hor with hor | hor
      · exact .inl hor
      · refine .inr (fun hcov => ?_)
        obtain ⟨r, hr, hrx⟩ := hcov
        rcases List.mem_cons.mp hr with rfl | hr
        · have : c < run.stop := hrx.2
          omega
        · exact hor ⟨r, hr, hrx⟩
    unfold advance at hs
    split at hs
    · rename_i hbehind
      obtain ⟨h1, h2, h3, h4⟩ := ih hrest hle hs
      refine ⟨h1, h2, ?_, hcons (hbehind.trans h1) h4⟩
      intro x hx hx'
      obtain ⟨r, hr, hrest⟩ := h3 x hx hx'
      exact ⟨r, List.mem_cons_of_mem _ hr, hrest⟩
    · rename_i hahead
      split at hs
      · rename_i hgap
        obtain rfl : cursor = cursor' := by simpa using hs
        refine ⟨le_rfl, hle, fun x h1 h2 => by omega, .inr (fun hcov => ?_)⟩
        obtain ⟨r, hr, hrx⟩ := hcov
        rcases List.mem_cons.mp hr with rfl | hr
        · have : run.start ≤ cursor := hrx.1
          omega
        · have := hafter r hr
          have := hrx.1
          omega
      · rename_i hinside
        cases hcheck : check k ⟨cursor, min run.stop stop⟩ with
        | error e => simp [hcheck] at hs
        | ok u =>
          have hpassed : ∀ x, cursor ≤ x → x < min run.stop stop →
              ∃ r ∈ (run, k) :: rest, r.1.Contains x ∧ ∃ s : Span, check r.2 s = .ok () ∧
                s.Contains x ∧ s.Inside r.1 ∧ s.Inside ⟨cursor, stop⟩ := by
            intro x hx hx'
            refine ⟨(run, k), by simp, ⟨?_, ?_⟩, ⟨cursor, min run.stop stop⟩, hcheck, ⟨hx, hx'⟩,
              ⟨?_, ?_⟩, le_rfl, ?_⟩
            all_goals simp only
            all_goals omega
          simp only [hcheck] at hs
          split at hs
          · rename_i hstop
            obtain rfl : stop = cursor' := by simpa using hs
            refine ⟨hle, le_rfl, ?_, .inl rfl⟩
            intro x hx hx'
            exact hpassed x hx (by omega)
          · rename_i hstop
            obtain ⟨h1, h2, h3, h4⟩ := ih hrest (by omega) hs
            refine ⟨by omega, h2, ?_, hcons (by omega) h4⟩
            intro x hx hx'
            by_cases hlow : x < min run.stop stop
            · exact hpassed x hx hlow
            · obtain ⟨r, hr, hrx, s, hs, hsx, hsr, hsin⟩ := h3 x (by omega) hx'
              refine ⟨r, List.mem_cons_of_mem _ hr, hrx, s, hs, hsx, hsr, ?_, hsin.2⟩
              have := hsin.1
              simp only at this ⊢
              omega

section Success

variable {start stop : ℕ} {check : κ → Span → Except ε Unit}

/-- Every part of a run inside the interval passes its check. -/
def Passes (start stop : ℕ) (check : κ → Span → Except ε Unit) (runs : List (Span × κ)) : Prop :=
  ∀ r ∈ runs, ∀ s : Span, s.start < s.stop → s.Inside r.1 → s.Inside ⟨start, stop⟩ →
    check r.2 s = .ok ()

theorem subtract_succeeds {runs : List (Span × κ)} {cursor : ℕ} {uncovered : List Span}
    (hpass : Passes start stop check runs) (hstart : start ≤ cursor) :
    ∃ cursor' uncovered', subtract stop check runs (cursor, uncovered) = .ok (cursor', uncovered') ∧
      start ≤ cursor' := by
  induction runs generalizing cursor uncovered with
  | nil => exact ⟨cursor, uncovered, rfl, hstart⟩
  | cons r rest ih =>
    obtain ⟨run, k⟩ := r
    have hrest : Passes start stop check rest := fun r hr => hpass r (List.mem_cons_of_mem _ hr)
    unfold subtract
    split
    · exact ih hrest hstart
    · split
      · exact ⟨cursor, uncovered, rfl, hstart⟩
      · simp only
        split
        · rename_i hlt
          rw [hpass (run, k) (by simp) ⟨max cursor run.start, min run.stop stop⟩ hlt
            ⟨le_max_right _ _, min_le_left _ _⟩ ⟨hstart.trans (le_max_left _ _), min_le_right _ _⟩]
          simp only
          split
          · exact ⟨_, _, rfl, by omega⟩
          · exact ih hrest (by omega)
        · split
          · exact ⟨_, _, rfl, by omega⟩
          · exact ih hrest (by omega)

theorem subtractAll_succeeds {owners : List (List (Span × κ))}
    (hpass : Passes start stop check owners.flatten) :
    ∃ spans, subtractAll start stop check owners = .ok spans := by
  have hfold : ∀ (owners : List (List (Span × κ))) (cursor : ℕ) (uncovered : List Span),
      Passes start stop check owners.flatten → start ≤ cursor →
      ∃ final, owners.foldlM (fun state runs => subtract stop check runs state)
        (cursor, uncovered) = (.ok final : Except ε (ℕ × List Span)) := by
    intro owners
    induction owners with
    | nil => exact fun cursor uncovered _ _ => ⟨(cursor, uncovered), rfl⟩
    | cons runs rest ih =>
      intro cursor uncovered hpass hstart
      rw [List.flatten_cons] at hpass
      have hruns : Passes start stop check runs := fun r hr => hpass r (List.mem_append_left _ hr)
      obtain ⟨cursor', uncovered', hone, hle⟩ :
          ∃ cursor' uncovered', subtract stop check runs (cursor, uncovered) =
            .ok (cursor', uncovered') ∧ start ≤ cursor' := subtract_succeeds hruns hstart
      obtain ⟨final, hfinal⟩ := ih cursor' uncovered'
        (fun r hr => hpass r (List.mem_append_right _ hr)) hle
      refine ⟨final, ?_⟩
      rw [List.foldlM_cons, hone]
      exact hfinal
  obtain ⟨final, hfinal⟩ := hfold owners start [] hpass le_rfl
  unfold subtractAll
  rw [hfinal]
  exact ⟨_, rfl⟩

end Success

end SpanWalk
