import Mathlib.Data.List.SplitBy

/-! Consecutive runs of a list, and the merging of weightless runs into the next one with
weight. Grouping blocks of elements and grouping the elements themselves give the same runs, and
the rest after the first merged run is grouped as before. -/
namespace RunGroups

variable {α β : Type*}

theorem flatMap_flatten (f : β → List α) (groups : List (List β)) :
    groups.flatten.flatMap f = (groups.map (·.flatMap f)).flatten := by
  induction groups with
  | nil => rfl
  | cons g groups ih => simp [ih]

theorem getLast_flatMap {f : β → List α} {g : List β} (hg : g ≠ []) (hlast : f (g.getLast hg) ≠ [])
    (hflat : g.flatMap f ≠ []) : (g.flatMap f).getLast hflat = (f (g.getLast hg)).getLast hlast := by
  have hsplit : g.flatMap f = g.dropLast.flatMap f ++ f (g.getLast hg) := by
    conv_lhs => rw [← List.dropLast_append_getLast hg]
    simp
  have hne : g.dropLast.flatMap f ++ f (g.getLast hg) ≠ [] := hsplit ▸ hflat
  calc (g.flatMap f).getLast hflat
      = (g.dropLast.flatMap f ++ f (g.getLast hg)).getLast hne := by simp only [hsplit]
    _ = (f (g.getLast hg)).getLast hlast := List.getLast_append_of_ne_nil hne hlast

theorem head_flatMap {f : β → List α} {g : List β} (hg : g ≠ []) (hhead : f (g.head hg) ≠ [])
    (hflat : g.flatMap f ≠ []) : (g.flatMap f).head hflat = (f (g.head hg)).head hhead := by
  obtain ⟨b, rest, rfl⟩ := List.exists_cons_of_ne_nil hg
  simp only [List.head_cons, List.flatMap_cons] at hhead ⊢
  exact List.head_append_of_ne_nil hhead

/-- Splitting blocks by how they meet is splitting their elements. -/
theorem splitBy_flatMap {r : α → α → Bool} {q : β → β → Bool} {f : β → List α} {blocks : List β}
    (hne : ∀ b ∈ blocks, f b ≠ []) (hchain : ∀ b ∈ blocks, (f b).IsChain fun x y => r x y)
    (hmeet : ∀ b ∈ blocks, ∀ b' ∈ blocks, ∀ hb hb', q b b' = r ((f b).getLast hb) ((f b').head hb')) :
    (blocks.flatMap f).splitBy r = (blocks.splitBy q).map (·.flatMap f) := by
  have hmem : ∀ g ∈ blocks.splitBy q, ∀ b ∈ g, b ∈ blocks := by
    intro g hg b hb
    rw [← List.flatten_splitBy q blocks]
    exact List.mem_flatten.mpr ⟨g, hg, hb⟩
  have hgroup : ∀ g ∈ blocks.splitBy q, g ≠ [] := fun g hg => List.ne_nil_of_mem_splitBy hg
  have hflat : ∀ g ∈ blocks.splitBy q, g.flatMap f ≠ [] := by
    intro g hg hnil
    obtain ⟨b, rest, rfl⟩ := List.exists_cons_of_ne_nil (hgroup g hg)
    have := List.append_eq_nil_iff.mp hnil
    exact hne b (hmem _ hg b (by simp)) this.1
  rw [List.splitBy_eq_iff]
  refine ⟨?_, ?_, ?_, ?_⟩
  · rw [← flatMap_flatten, List.flatten_splitBy]
  · intro hnil
    obtain ⟨g, hg, hgnil⟩ := List.mem_map.mp hnil
    exact hflat g hg hgnil
  · intro m hm
    obtain ⟨g, hg, rfl⟩ := List.mem_map.mp hm
    rw [List.flatMap_def, List.isChain_flatten]
    · refine ⟨?_, ?_⟩
      · intro m hm
        obtain ⟨b, hb, rfl⟩ := List.mem_map.mp hm
        exact hchain b (hmem g hg b hb)
      · rw [List.isChain_map]
        have hq := List.isChain_of_mem_splitBy hg
        refine hq.imp_of_mem_imp ?_
        intro b b' hb hb' hbb x hx y hy
        have h1 := List.getLast_of_mem_getLast? hx
        have h2 := List.head_of_mem_head? hy
        rw [← h1, ← h2]
        have hne1 : f b ≠ [] := hne b (hmem g hg b hb)
        have hne2 : f b' ≠ [] := hne b' (hmem g hg b' hb')
        rw [← hmeet b (hmem g hg b hb) b' (hmem g hg b' hb') hne1 hne2]
        exact hbb
    · intro hnil
      obtain ⟨b, hb, hbnil⟩ := List.mem_map.mp hnil
      exact hne b (hmem g hg b hb) hbnil
  · rw [List.isChain_map]
    refine (List.isChain_getLast_head_splitBy q blocks).imp_of_mem_imp ?_
    intro g g' hg hg' hbreak
    obtain ⟨h1, h2, hq⟩ := hbreak
    refine ⟨hflat g hg, hflat g' hg', ?_⟩
    have hlast : f (g.getLast h1) ≠ [] := hne _ (hmem g hg _ (List.getLast_mem h1))
    have hhead : f (g'.head h2) ≠ [] := hne _ (hmem g' hg' _ (List.head_mem h2))
    rw [getLast_flatMap h1 hlast, head_flatMap h2 hhead,
      ← hmeet _ (hmem g hg _ (List.getLast_mem h1)) _ (hmem g' hg' _ (List.head_mem h2))]
    exact hq

/-- One group of the merging fold: a weightless group waits for the next one with weight. -/
def mergeStep (weight : List α → ℕ) (state : List (List α) × List α) (group : List α) :
    List (List α) × List α :=
  if weight group = 0 then (state.1, state.2 ++ group) else (state.1 ++ [state.2 ++ group], [])

/-- What waits at the end goes to the last group. -/
def mergeRest : List (List α) × List α → List (List α)
  | (groups, pending) =>
    match groups.getLast? with
    | none => []
    | some last => groups.dropLast ++ [last ++ pending]

def mergeWeightless (weight : List α → ℕ) (groups : List (List α)) : List (List α) :=
  mergeRest (groups.foldl (mergeStep weight) ([], []))

variable {weight : List α → ℕ}

theorem mergeRest_append (done groups : List (List α)) (pending : List α) (h : groups ≠ []) :
    mergeRest (done ++ groups, pending) = done ++ mergeRest (groups, pending) := by
  obtain ⟨last, hlast⟩ := List.getLast?_isSome.mpr h |> Option.isSome_iff_exists.mp
  have hdone : (done ++ groups).getLast? = some last := by
    rw [List.getLast?_append, hlast]
    rfl
  simp only [mergeRest, hlast, hdone, List.dropLast_append_of_ne_nil h, List.append_assoc]

theorem foldl_mergeStep_append (groups done : List (List α)) (pending : List α) :
    groups.foldl (mergeStep weight) (done, pending) =
      (done ++ (groups.foldl (mergeStep weight) ([], pending)).1,
        (groups.foldl (mergeStep weight) ([], pending)).2) := by
  induction groups generalizing done pending with
  | nil => simp
  | cons g groups ih =>
    simp only [List.foldl_cons, mergeStep]
    split
    · exact ih done (pending ++ g)
    · rw [ih (done ++ [pending ++ g]), ih ([] ++ [pending ++ g])]
      simp

/-- Weightless groups only wait. -/
theorem foldl_mergeStep_weightless {groups : List (List α)} (done : List (List α)) (pending : List α)
    (h : ∀ g ∈ groups, weight g = 0) :
    groups.foldl (mergeStep weight) (done, pending) = (done, pending ++ groups.flatten) := by
  induction groups generalizing pending with
  | nil => simp
  | cons g groups ih =>
    rw [List.foldl_cons, mergeStep, if_pos (h g (by simp)),
      ih _ (fun g' hg' => h g' (List.mem_cons_of_mem _ hg'))]
    simp

theorem foldl_mergeStep_ne_nil {groups : List (List α)} (done : List (List α)) (pending : List α)
    (h : ∃ g ∈ groups, weight g ≠ 0) :
    (groups.foldl (mergeStep weight) (done, pending)).1 ≠ [] := by
  induction groups generalizing done pending with
  | nil => simp at h
  | cons g groups ih =>
    rw [List.foldl_cons, mergeStep]
    split
    · rename_i hg
      obtain ⟨g', hg', hw⟩ := h
      rcases List.mem_cons.mp hg' with rfl | hg'
      · exact absurd hg hw
      · exact ih _ _ ⟨g', hg', hw⟩
    · rw [foldl_mergeStep_append]
      simp

theorem flatten_mergeRest {groups : List (List α)} {pending : List α} (h : groups ≠ []) :
    (mergeRest (groups, pending)).flatten = groups.flatten ++ pending := by
  have hlast : groups.getLast? = some (groups.getLast h) := List.getLast?_eq_some_getLast h
  simp only [mergeRest, hlast]
  conv_rhs => rw [← List.dropLast_append_getLast h]
  simp

theorem flatten_foldl_mergeStep (groups done : List (List α)) (pending : List α) :
    (groups.foldl (mergeStep weight) (done, pending)).1.flatten ++
        (groups.foldl (mergeStep weight) (done, pending)).2 =
      done.flatten ++ pending ++ groups.flatten := by
  induction groups generalizing done pending with
  | nil => simp
  | cons g groups ih =>
    rw [List.foldl_cons, mergeStep]
    split
    · rw [ih]
      simp
    · rw [ih]
      simp

/-- When some group has weight, merging loses nothing. -/
theorem flatten_mergeWeightless {groups : List (List α)} (h : ∃ g ∈ groups, weight g ≠ 0) :
    (mergeWeightless weight groups).flatten = groups.flatten := by
  unfold mergeWeightless
  rw [flatten_mergeRest (foldl_mergeStep_ne_nil [] [] h), flatten_foldl_mergeStep]
  simp

theorem mergeWeightless_eq_nil {groups : List (List α)} :
    mergeWeightless weight groups = [] ↔ ∀ g ∈ groups, weight g = 0 := by
  constructor
  · intro h g hg
    by_contra hw
    have hflat := foldl_mergeStep_ne_nil [] [] ⟨g, hg, hw⟩
    obtain ⟨last, hlast⟩ := Option.isSome_iff_exists.mp (List.getLast?_isSome.mpr hflat)
    unfold mergeWeightless mergeRest at h
    simp only [hlast] at h
    simp at h
  · intro h
    rw [mergeWeightless, foldl_mergeStep_weightless _ _ h]
    rfl

/-- The first merged group, and how the rest is merged. -/
theorem mergeWeightless_cons {groups : List (List α)} {pending g : List α} {rest : List (List α)}
    (h : mergeRest (groups.foldl (mergeStep weight) ([], pending)) = g :: rest) :
    ∃ front back, groups = front ++ back ∧ g = pending ++ front.flatten ∧
      (∃ x ∈ front, weight x ≠ 0) ∧ rest = mergeWeightless weight back ∧
      rest.flatten = back.flatten := by
  induction groups generalizing pending with
  | nil => simp [mergeRest] at h
  | cons x groups ih =>
    rw [List.foldl_cons, mergeStep] at h
    split at h
    · obtain ⟨front, back, rfl, rfl, hw, hrest, hflat⟩ := ih h
      refine ⟨x :: front, back, rfl, by simp, ?_, hrest, hflat⟩
      obtain ⟨y, hy, hyw⟩ := hw
      exact ⟨y, List.mem_cons_of_mem _ hy, hyw⟩
    · rename_i hx
      rw [List.nil_append, foldl_mergeStep_append] at h
      by_cases hlater : ∃ y ∈ groups, weight y ≠ 0
      · rw [mergeRest_append _ _ _ (foldl_mergeStep_ne_nil _ _ hlater)] at h
        obtain ⟨rfl, rfl⟩ : pending ++ x = g ∧
            mergeRest (groups.foldl (mergeStep weight) ([], [])) = rest := by
          simpa using h
        refine ⟨[x], groups, rfl, by simp, ⟨x, by simp, hx⟩, rfl, ?_⟩
        exact flatten_mergeWeightless hlater
      · have hzero : ∀ y ∈ groups, weight y = 0 := by
          intro y hy
          by_contra hne
          exact hlater ⟨y, hy, hne⟩
        rw [foldl_mergeStep_weightless _ _ hzero] at h
        obtain ⟨rfl, rfl⟩ : pending ++ x ++ groups.flatten = g ∧ [] = rest := by
          simpa [mergeRest] using h
        exact ⟨x :: groups, [], by simp, by simp, ⟨x, by simp, hx⟩, rfl, rfl⟩

/-- The first merged run of a list, and the runs of what follows it. -/
theorem mergeWeightless_splitBy_cons {r : α → α → Bool} {l g : List α} {rest : List (List α)}
    (h : mergeWeightless weight (l.splitBy r) = g :: rest) :
    l = g ++ rest.flatten ∧ mergeWeightless weight (rest.flatten.splitBy r) = rest ∧
      ∃ front : List (List α), g = front.flatten ∧ ∃ x ∈ front, weight x ≠ 0 := by
  obtain ⟨front, back, hsplit, hg, hw, hrest, hflat⟩ := mergeWeightless_cons h
  rw [List.nil_append] at hg
  have hl : l = front.flatten ++ back.flatten := by
    rw [← List.flatten_append, ← hsplit, List.flatten_splitBy]
  -- The later runs are the runs of their own elements.
  have hback : back.flatten.splitBy r = back := by
    obtain ⟨-, hnil, hchain, hmeet⟩ := List.splitBy_eq_iff.mp hsplit
    refine List.splitBy_eq_iff.mpr ⟨rfl, ?_, ?_, ?_⟩
    · exact fun hmem => hnil (List.mem_append_right _ hmem)
    · exact fun m hm => hchain m (List.mem_append_right _ hm)
    · exact (List.isChain_append.mp hmeet).2.1
  refine ⟨?_, ?_, front, hg, hw⟩
  · rw [hflat, hg, hl]
  · rw [hflat, hback, hrest]

theorem foldl_mergeStep_flatMap {weight' : List β → ℕ} {f : β → List α} {groups : List (List β)}
    (hweight : ∀ g ∈ groups, weight (g.flatMap f) = weight' g) (done : List (List β))
    (pending : List β) :
    (groups.map (·.flatMap f)).foldl (mergeStep weight) (done.map (·.flatMap f), pending.flatMap f) =
      ((groups.foldl (mergeStep weight') (done, pending)).1.map (·.flatMap f),
        (groups.foldl (mergeStep weight') (done, pending)).2.flatMap f) := by
  induction groups generalizing done pending with
  | nil => rfl
  | cons g groups ih =>
    have hrest : ∀ g ∈ groups, weight (g.flatMap f) = weight' g := fun g' hg' =>
      hweight g' (List.mem_cons_of_mem _ hg')
    simp only [List.map_cons, List.foldl_cons, mergeStep, hweight g (by simp)]
    split
    · have := ih hrest done (pending ++ g)
      simpa using this
    · have := ih hrest (done ++ [pending ++ g]) []
      simpa using this

/-- Merging groups of blocks is merging the groups of their elements. -/
theorem mergeWeightless_flatMap {weight' : List β → ℕ} {f : β → List α} {groups : List (List β)}
    (hweight : ∀ g ∈ groups, weight (g.flatMap f) = weight' g) :
    mergeWeightless weight (groups.map (·.flatMap f)) =
      (mergeWeightless weight' groups).map (·.flatMap f) := by
  have hfold := foldl_mergeStep_flatMap hweight [] []
  simp only [List.map_nil, List.flatMap_nil] at hfold
  unfold mergeWeightless
  rw [hfold]
  simp only [mergeRest, List.getLast?_map]
  cases (groups.foldl (mergeStep weight') ([], [])).1.getLast? with
  | none => rfl
  | some last => simp [List.map_dropLast]

/-- Where the first merged run ends the list is broken. -/
theorem mergeWeightless_splitBy_break {r : α → α → Bool} {l g : List α} {rest : List (List α)}
    (h : mergeWeightless weight (l.splitBy r) = g :: rest) {x y : α} (hx : x ∈ g.getLast?)
    (hy : y ∈ rest.flatten.head?) : r x y = false := by
  obtain ⟨front, back, hsplit, rfl, ⟨f, hf, -⟩, -, hflat⟩ := mergeWeightless_cons h
  rw [hflat] at hy
  obtain ⟨-, hnil, -, hmeet⟩ := List.splitBy_eq_iff.mp hsplit
  rcases List.eq_nil_or_concat' front with rfl | ⟨front, last, rfl⟩
  · simp at hf
  · cases back with
    | nil => simp at hy
    | cons first back =>
      obtain ⟨hl, hb, hbreak⟩ := (List.isChain_append.mp hmeet).2.2 last (by simp) first (by simp)
      have h1 : x = last.getLast hl := by
        have hlast : last.getLast? = some x := by
          simpa [List.getLast?_append, List.getLast?_eq_some_getLast hl] using hx
        rw [List.getLast?_eq_some_getLast hl] at hlast
        exact (Option.some.inj hlast).symm
      have h2 : y = first.head hb := by
        have hhead : first.head? = some y := by
          simpa [List.head?_append, List.head?_eq_some_head hb] using hy
        rw [List.head?_eq_some_head hb] at hhead
        exact (Option.some.inj hhead).symm
      rw [h1, h2]
      exact hbreak

/-- Merging the runs of what remains after some merged runs gives the other ones. -/
theorem mergeWeightless_splitBy_drop {r : α → α → Bool} (l : List α) (k : ℕ) :
    mergeWeightless weight
        (((mergeWeightless weight (l.splitBy r)).drop k).flatten.splitBy r) =
      (mergeWeightless weight (l.splitBy r)).drop k := by
  obtain ⟨groups, hgroups⟩ : ∃ groups, groups = mergeWeightless weight (l.splitBy r) := ⟨_, rfl⟩
  rw [← hgroups]
  induction groups generalizing l k with
  | nil => simp [mergeWeightless, mergeRest]
  | cons g rest ih =>
    obtain ⟨hl, hrest, -⟩ := mergeWeightless_splitBy_cons hgroups.symm
    cases k with
    | zero =>
      rw [List.drop_zero, List.flatten_cons, ← hl, ← hgroups]
    | succ k => exact ih rest.flatten k hrest.symm

/-- A merged run is made of runs of the list, one of them with weight. -/
theorem mem_mergeWeightless_splitBy {r : α → α → Bool} {l g : List α}
    (hg : g ∈ mergeWeightless weight (l.splitBy r)) :
    g ⊆ l ∧ ∃ front : List (List α), g = front.flatten ∧ ∃ x ∈ front, weight x ≠ 0 := by
  obtain ⟨groups, hgroups⟩ : ∃ groups, groups = mergeWeightless weight (l.splitBy r) := ⟨_, rfl⟩
  rw [← hgroups] at hg
  induction groups generalizing l with
  | nil => simp at hg
  | cons first rest ih =>
    obtain ⟨hl, hrest, hfront⟩ := mergeWeightless_splitBy_cons hgroups.symm
    rw [hl]
    rcases List.mem_cons.mp hg with rfl | hg
    · exact ⟨List.subset_append_left _ _, hfront⟩
    · obtain ⟨hsub, hfront'⟩ := ih hg hrest.symm
      exact ⟨fun y hy => List.mem_append_right _ (hsub hy), hfront'⟩

/-- Neighbouring merged runs meet at a break. -/
theorem mergeWeightless_splitBy_chain {r : α → α → Bool} (l : List α)
    (hne : ∀ g ∈ mergeWeightless weight (l.splitBy r), g ≠ []) :
    (mergeWeightless weight (l.splitBy r)).IsChain fun g g' =>
      ∃ x ∈ g.getLast?, ∃ y ∈ g'.head?, r x y = false := by
  obtain ⟨groups, hgroups⟩ : ∃ groups, groups = mergeWeightless weight (l.splitBy r) := ⟨_, rfl⟩
  rw [← hgroups] at hne ⊢
  induction groups generalizing l with
  | nil => simp
  | cons g rest ih =>
    obtain ⟨-, hrest, -⟩ := mergeWeightless_splitBy_cons hgroups.symm
    have htail := ih rest.flatten (fun g hg => hne g (List.mem_cons_of_mem _ hg)) hrest.symm
    cases rest with
    | nil => simp
    | cons g' rest =>
      refine List.isChain_cons_cons.mpr ⟨?_, htail⟩
      have hg := List.getLast?_eq_some_getLast (hne g (by simp))
      have hg' := List.head?_eq_some_head (hne g' (by simp))
      refine ⟨_, hg, _, hg', mergeWeightless_splitBy_break hgroups.symm hg ?_⟩
      simp [List.head?_append, hg']

/-- One round of a grouping loop: the item joins the last group or starts one. -/
def appendBy (q : α → α → Bool) (groups : List (List α)) (item : α) : List (List α) :=
  match groups.getLast? with
  | none => [[item]]
  | some last =>
    match last.getLast? with
    | none => groups.dropLast ++ [last ++ [item]]
    | some previous =>
      if q previous item then groups.dropLast ++ [last ++ [item]] else groups ++ [[item]]

theorem appendBy_concat {q : α → α → Bool} {groups : List (List α)} {g : List α} {p item : α} :
    appendBy q (groups ++ [g ++ [p]]) item =
      if q p item then groups ++ [g ++ [p] ++ [item]] else groups ++ [g ++ [p]] ++ [[item]] := by
  simp [appendBy]

/-- The grouping loop yields the consecutive runs. -/
theorem foldl_appendBy (q : α → α → Bool) (l : List α) : l.foldl (appendBy q) [] = l.splitBy q := by
  induction l using List.reverseRecOn with
  | nil => rfl
  | append_singleton l item ih =>
    rw [List.foldl_append, ih, List.foldl_cons, List.foldl_nil]
    rcases List.eq_nil_or_concat' (l.splitBy q) with hnil | ⟨groups, last, hgroups⟩
    · obtain rfl := List.splitBy_eq_nil.mp hnil
      simp [appendBy, List.splitBy_of_isChain]
    · obtain ⟨hflat, hne, hchain, hmeet⟩ := List.splitBy_eq_iff.mp hgroups
      have hlast : last ≠ [] := by
        rintro rfl
        exact hne (by simp)
      obtain ⟨g, p, rfl⟩ := (List.eq_nil_or_concat' last).resolve_left hlast
      rw [hgroups, appendBy_concat]
      have hl : l.getLast? = some p := by
        rw [hflat]
        simp
      by_cases hq : q p item
      · rw [if_pos hq]
        symm
        rw [List.splitBy_eq_iff]
        refine ⟨by simp [hflat], by simpa using hne, ?_, ?_⟩
        · intro m hm
          rcases List.mem_append.mp hm with hm | hm
          · exact hchain m (List.mem_append_left _ hm)
          · obtain rfl := List.mem_singleton.mp hm
            refine List.isChain_append.mpr ⟨hchain (g ++ [p]) (by simp), by simp, ?_⟩
            simpa using hq
        · obtain ⟨hgroups', -, hlast'⟩ := List.isChain_append.mp hmeet
          refine List.isChain_append.mpr ⟨hgroups', by simp, ?_⟩
          intro x hx y hy
          obtain rfl : g ++ [p] ++ [item] = y := by simpa using hy
          obtain ⟨hx', hp, hxp⟩ := hlast' x hx (g ++ [p]) (by simp)
          refine ⟨hx', by simp, ?_⟩
          rw [← hxp]
          congr 1
          exact List.head_append_of_ne_nil hp
      · rw [if_neg hq, List.splitBy_append, hgroups]
        · simp [List.splitBy_of_isChain]
        · intro x hx y hy
          obtain rfl : p = x := by simpa [hl] using hx
          obtain rfl : item = y := by simpa using hy
          simpa using hq

/-- Grouping the images of a list. -/
theorem splitBy_map {q : β → β → Bool} (f : α → β) (l : List α) :
    (l.map f).splitBy q = (l.splitBy fun a b => q (f a) (f b)).map (·.map f) := by
  have h : (l.flatMap fun a => [f a]).splitBy q =
      (l.splitBy fun a b => q (f a) (f b)).map fun run => run.flatMap fun a => [f a] :=
    splitBy_flatMap (by simp) (by simp) (by simp)
  simpa only [← List.map_eq_flatMap] using h

/-- Merging the images of groups. -/
theorem mergeWeightless_map {weight : List β → ℕ} {weight' : List α → ℕ} {f : α → β}
    {groups : List (List α)} (hweight : ∀ g ∈ groups, weight (g.map f) = weight' g) :
    mergeWeightless weight (groups.map (·.map f)) =
      (mergeWeightless weight' groups).map (·.map f) := by
  have h : mergeWeightless weight (groups.map fun g => g.flatMap fun a => [f a]) =
      (mergeWeightless weight' groups).map fun g => g.flatMap fun a => [f a] :=
    mergeWeightless_flatMap (by simpa only [← List.map_eq_flatMap] using hweight)
  simpa only [← List.map_eq_flatMap] using h

end RunGroups
