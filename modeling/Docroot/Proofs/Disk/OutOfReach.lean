import Docroot.Proofs.Disk.LinkFree

/-!
# Places out of reach

Nothing can be stored at a place whose path is too long, or has a NUL in it, or
goes on from a directory by a name that is too long. Asked for such a place, the
system does not say that nothing is there, it says what is wrong with the
question: the place is *out of reach* (`Disk.OutOfReach`).

At all other places without links it answers the question, by what stands there
or by the word that it is missing, so a place is out of reach exactly if asking
for it comes to another fault (`statusAt_fault_iff`).
-/

namespace Docroot

/-- Something is missing: the entry that was asked for, or the directory it would
    have to be in. -/
def Fault.IsMissing (fault : Fault) : Prop := fault = .notFound ∨ fault = .notDirectory

namespace Disk

/-- The system does not look for anything at the place: its path is too long, has
    a NUL in it, or goes on from a directory by a name too long for one. -/
def OutOfReach (d : Disk) (place : Location) : Prop :=
  maxPathBytes ≤ place.bytes ∨ place.any Name.hasNul = true ∨
    ∃ p n, p ++ [n] <+: place ∧ d.isDirectory p = true ∧ Name.maxBytes < n.bytes

variable {d : Disk} {rule : Lookup} {k : Nat} {place p : Location} {names : List Name}
  {fault : Fault} {entry : Entry}

theorem lookupAt_of_le (hbytes : maxPathBytes ≤ place.bytes) :
    ∃ fault, d.lookupAt .status place = .error fault ∧ ¬ fault.IsMissing := by
  have hadmits : Lookup.status.admitsBytes place.bytes = false := by
    rw [← Bool.not_eq_true, status_admitsBytes, Nat.not_lt]
    exact hbytes
  rw [lookupAt, hadmits]
  cases place.any Name.hasNul
  · exact ⟨.nameTooLong, rfl, by simp [Fault.IsMissing]⟩
  · exact ⟨.nulByte, rfl, by simp [Fault.IsMissing]⟩

theorem lookupAt_of_hasNul (hnul : place.any Name.hasNul = true) :
    ∃ fault, d.lookupAt .status place = .error fault ∧ ¬ fault.IsMissing := by
  refine ⟨.nulByte, ?_, by simp [Fault.IsMissing]⟩
  rw [lookupAt, hnul]
  cases Lookup.status.admitsBytes place.bytes <;> rfl

/-- Short of these two limits, the names of a place are followed from the top. -/
theorem lookupAt_eq_follow (hbytes : place.bytes < maxPathBytes)
    (hnul : place.any Name.hasNul = false) : d.lookupAt .status place =
      d.follow .status maxLinks [] (place.map fun n => .step (.name n)) := by
  rw [lookupAt, status_admitsBytes.2 hbytes, hnul]
  rfl

/-- A name that is too long for a directory ends the lookup in it. -/
theorem follow_of_long_name {n : Name} {behind : List Component} (hdir : d.isDirectory p = true)
    (hn : Name.maxBytes < n.bytes) :
    d.follow rule k p (.step (.name n) :: behind) = .error .nameTooLong := by
  rw [follow_name, hdir, if_neg (by simp), if_pos hn]

/-- A place out of reach is not said to be missing. -/
theorem statusAt_of_outOfReach (h : d.OutOfReach place) :
    ∃ fault, d.statusAt place = .error fault ∧ ¬ fault.IsMissing := by
  have hlookup : ∃ fault, d.lookupAt .status place = .error fault ∧ ¬ fault.IsMissing := by
    rcases Nat.lt_or_ge place.bytes maxPathBytes with hbytes | hbytes
    · cases hnul : place.any Name.hasNul with
      | true => exact lookupAt_of_hasNul hnul
      | false =>
        obtain hle | hsome | ⟨p, n, ⟨rest, rfl⟩, hdir, hn⟩ := h
        · exact absurd hbytes (Nat.not_lt.2 hle)
        · rw [hsome] at hnul
          cases hnul
        · -- The lookup comes to the directory that the name is too long for.
          refine ⟨.nameTooLong, ?_, by simp [Fault.IsMissing]⟩
          have hp : Location.bytes p < maxPathBytes :=
            Location.bytes_lt_of_prefix (by simp [List.append_assoc]) hbytes
          rw [lookupAt_eq_follow hbytes hnul, List.append_assoc, List.map_append,
            follow_of_isDirectory hdir hp, List.singleton_append, List.map_cons,
            follow_of_long_name hdir hn]
    · exact lookupAt_of_le hbytes
  obtain ⟨fault, hfault, hmissing⟩ := hlookup
  exact ⟨fault, by rw [statusAt, hfault]; rfl, hmissing⟩

/-- A lookup along names without links finds the last, or one of them is missing
    or in no directory, if none is too long for the directory it is in. -/
theorem follow_names (hcreates : rule.createsLast = false) (hfree : d.LinkFree (p ++ names))
    (hbytes : Location.bytes (p ++ names) < maxPathBytes)
    (hnames : ∀ q n, q ++ [n] <+: p ++ names → d.isDirectory q = true → n.bytes ≤ Name.maxBytes) :
    (∃ r, d.follow rule k p (names.map fun n => .step (.name n)) = .ok r) ∨
      ∃ fault, d.follow rule k p (names.map fun n => .step (.name n)) = .error fault ∧
        fault.IsMissing := by
  induction names generalizing p with
  | nil => exact .inl ⟨p, follow_nil⟩
  | cons n names ih =>
    have hprefix : p ++ [n] <+: p ++ n :: names := ⟨names, by simp⟩
    have hnext : p ++ n :: names = (p ++ [n]) ++ names := by simp
    have hadmits : rule.admits (p ++ [n]) = true :=
      admits_of_lt (Location.bytes_lt_of_prefix hprefix hbytes)
    rw [List.map_cons]
    cases hdir : d.isDirectory p with
    | false =>
      refine .inr ⟨.notDirectory, ?_, .inr rfl⟩
      rw [follow_name, hdir]
      rfl
    | true =>
      have hn : ¬ Name.maxBytes < n.bytes := Nat.not_lt.2 (hnames p n hprefix hdir)
      cases hentry : d.entryAt? (p ++ [n]) with
      | none =>
        refine .inr ⟨.notFound, ?_, .inl rfl⟩
        rw [follow_name, hdir, if_neg (by simp), if_neg hn, hadmits, hentry]
        simp [Lookup.creates, hcreates]
      | some entry =>
        have htarget : entry.target? = none := by
          have hnone := hfree _ hprefix (Location.bytes_lt_of_prefix hprefix hbytes)
          simpa [targetAt?, hentry] using hnone
        rw [follow_name_of_entry hadmits hentry htarget]
        rw [hnext] at hfree hbytes hnames
        exact ih hfree hbytes hnames

/-- A place without links that is not out of reach is found or missing. -/
theorem statusAt_of_not_outOfReach (hfree : d.LinkFree place) (h : ¬ d.OutOfReach place) :
    (∃ entry, d.statusAt place = .ok entry) ∨
      ∃ fault, d.statusAt place = .error fault ∧ fault.IsMissing := by
  rw [OutOfReach, not_or, not_or, Nat.not_le, Bool.not_eq_true] at h
  obtain ⟨hbytes, hnul, hnames⟩ := h
  have hfollow := @follow_names d .status maxLinks [] place rfl hfree hbytes
    fun q n hq hdir => Nat.not_lt.1 fun hn => hnames ⟨q, n, hq, hdir, hn⟩
  rw [← lookupAt_eq_follow hbytes hnul] at hfollow
  obtain ⟨q, hq⟩ | ⟨fault, hfault, hmissing⟩ := hfollow
  · obtain ⟨_, hsome, rfl⟩ := (lookupAt_status_eq_ok_iff hfree).1 hq
    obtain ⟨entry, hentry⟩ := Option.isSome_iff_exists.1 hsome
    exact .inl ⟨entry, (statusAt_eq_ok_iff hfree).2 ⟨hbytes, hentry⟩⟩
  · exact .inr ⟨fault, by rw [statusAt, hfault]; rfl, hmissing⟩

/-- Asking for a place without links comes to another fault than that something
    is missing exactly if the place is out of reach. -/
theorem statusAt_fault_iff (hfree : d.LinkFree place) :
    (∃ fault, d.statusAt place = .error fault ∧ ¬ fault.IsMissing) ↔ d.OutOfReach place := by
  refine ⟨?_, statusAt_of_outOfReach⟩
  rintro ⟨fault, hfault, hmissing⟩
  by_contra h
  obtain ⟨entry, hentry⟩ | ⟨fault', hfault', hmissing'⟩ := statusAt_of_not_outOfReach hfree h
  · rw [hfault] at hentry
    cases hentry
  · obtain rfl := Except.error.inj (hfault.symm.trans hfault')
    exact hmissing hmissing'

end Disk

end Docroot
