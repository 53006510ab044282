import OmiCollector.PublicTime

/-! A clock write as a barrier between consecutive records. A record is comparable with its
predecessor when both carry one membership key or lie in one mapped component, and no recorded
uncertain interval touches it. A pending write cuts the components and relabels the sequences of
its interval; an empty pending interval relabels none, so that a shared key still crosses it. -/
namespace TimeBarrier

open SpanCover ClockModel KeyText PublicTime

theorem partition_mapped {hex : ℚ → String} {s : ClockState} {x rawTimestamp : ℕ} {key : String}
    (h : Labelled hex s x rawTimestamp key) (hkind : partition key = "mapped") :
    ∃ c, mappedComponent (fromState s) x = .ok c ∧ key = mappedKey c := by
  cases h with
  | intent pending => simp at hkind
  | uncovered outside free => simp at hkind
  | range outside held inside unknown => simp at hkind
  | raw outside held inside mapped overflows => simp at hkind
  | mapped outside held inside mapped fits component => exact ⟨_, component, rfl⟩

theorem freeze_label {hex : ℚ → String} {s : ClockState} {x raw : ℕ}
    {earlier : Option FrozenTimePredecessor} {time : FrozenPublicTime}
    (h : freeze hex (fromState s) x raw earlier = .ok time) :
    Labelled hex s x raw time.causalMembership := by
  unfold freeze at h
  split at h
  · simp at h
  · split at h
    · simp at h
    · obtain ⟨label, hlabel, hkey⟩ := publicLabel_spec hex s x raw
      obtain ⟨label', hlabel', h⟩ := ClockTiming.bind_eq_ok h
      obtain rfl := Except.ok.inj (hlabel.symm.trans hlabel')
      obtain ⟨comparable, -, h⟩ := ClockTiming.bind_eq_ok h
      obtain rfl := Except.ok.inj h
      exact hkey

/-- A clock write of which the device cursor saw nothing, still pending at sequence 5. -/
def emptyWrite : ClockIntent :=
  ⟨"write", .uncertain, 100, 200, 0, 5, some 5, by simp⟩

/-- The pending write inside one range. -/
def pendingWithin (r : ClockRange) : ClockState :=
  ⟨[r], some emptyWrite, none, [], List.isChain_singleton r⟩

def zeroHex : ℚ → String := fun _ => "0x0.0p+0"

end TimeBarrier
