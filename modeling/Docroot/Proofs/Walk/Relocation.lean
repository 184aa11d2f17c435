import Docroot.Proofs.Walk.Reaching

/-!
# A tree in another place

The same tree can stand in two places, on one disk or on two. It is *relocated*
(`Disk.Relocated`) if it is complete in itself: its links have relative targets, and
to follow one never leads out of the tree. Then nothing that is looked up below
the one place depends on where the place is:

* a lookup that stays in the tree leads to the same place in it, or fails for the
  same reason (`Relocated.follow_related`), and names alone never leave it
  (`LinksStayIn.staysIn_names`);
* so do walks whose paths stay short enough (`Relocated.walk_related`);
* what a path into the tree leads to is the same (`Relocated.statusAt_eq`).
-/

namespace Docroot

/-- Two results are related: what came out, or why nothing did. -/
inductive Except.Related {ε ε' α β : Type} (faults : ε → ε' → Prop) (values : α → β → Prop) :
    Except ε α → Except ε' β → Prop
  | ok {a : α} {b : β} : values a b → Related faults values (.ok a) (.ok b)
  | error {x : ε} {y : ε'} : faults x y → Related faults values (.error x) (.error y)

namespace Except.Related

variable {ε ε' α β γ δ : Type} {faults : ε → ε' → Prop} {values : α → β → Prop}
  {values' : γ → δ → Prop} {x : Except ε α} {y : Except ε' β}

theorem ok_or_error (h : Related faults values x y) :
    (∃ a b, x = .ok a ∧ y = .ok b ∧ values a b) ∨
      ∃ f g, x = .error f ∧ y = .error g ∧ faults f g := by
  cases h with
  | ok hvalues => exact .inl ⟨_, _, rfl, rfl, hvalues⟩
  | error hfaults => exact .inr ⟨_, _, rfl, rfl, hfaults⟩

/-- Stages that give related results give them one behind the other. -/
theorem bind {f : α → Except ε γ} {g : β → Except ε' δ} (h : Related faults values x y)
    (hfg : ∀ a b, x = .ok a → y = .ok b → values a b → Related faults values' (f a) (g b)) :
    Related faults values' (x >>= f) (y >>= g) := by
  cases h with
  | ok hvalues => exact hfg _ _ rfl rfl hvalues
  | error hfaults => exact .error hfaults

theorem toBool_eq (h : Related faults values x y) : x.toBool = y.toBool := by
  cases h <;> rfl

theorem eq {x y : Except ε α} (h : Related Eq Eq x y) : x = y := by
  cases h with
  | ok hvalues => rw [hvalues]
  | error hfaults => rw [hfaults]

theorem refl {faults : ε → ε → Prop} {values : α → α → Prop} (hfaults : ∀ f, faults f f)
    (hvalues : ∀ a, values a a) (x : Except ε α) : Related faults values x x := by
  cases x with
  | error f => exact .error (hfaults f)
  | ok a => exact .ok (hvalues a)

end Except.Related

/-- Moves without `..` are made by names alone. -/
theorem Step.exists_names {steps : List Step} (h : .up ∉ steps) :
    ∃ names : List Name, names.map .name = steps := by
  induction steps with
  | nil => exact ⟨[], rfl⟩
  | cons s steps ih =>
    rw [List.mem_cons, not_or] at h
    obtain ⟨names, rfl⟩ := ih h.2
    cases s with
    | up => exact absurd rfl h.1
    | name n => exact ⟨n :: names, rfl⟩

/-- Two places are the same, each seen from its own root. -/
inductive Location.Moved (root root' : Location) : Location → Location → Prop
  | intro (p : Location) : Moved root root' (root ++ p) (root' ++ p)

namespace Disk

/-- The links below a root have relative targets, and to follow one does not leave
    the root. -/
structure LinksStayIn (d : Disk) (root : Location) : Prop where
  isAbsolute : ∀ p target, d.entryAt? (root ++ p) = some (.link target) → target.isAbsolute = false
  staysIn : ∀ p n target, d.entryAt? (root ++ p ++ [n]) = some (.link target) →
    d.StaysIn root (root ++ p) target.steps

/-- The same tree stands in two places, each a directory, and its links do not lead
    out of it. -/
structure Relocated (d : Disk) (root : Location) (e : Disk) (root' : Location) : Prop where
  isDirectory : d.isDirectory root = true
  entryAt?_eq : ∀ p, d.entryAt? (root ++ p) = e.entryAt? (root' ++ p)
  linksStayIn : d.LinksStayIn root
  linksStayIn' : e.LinksStayIn root'

variable {d e : Disk} {root root' p : Location} {rule : Lookup} {k hops : Nat} {n : Name}
  {names : List Name} {comps : List Component} {steps : List Step} {target : Path} {short : Prop}

theorem LinksStayIn.anchor (h : d.LinksStayIn root)
    (hlink : d.targetAt? (root ++ p ++ [n]) = some target) :
    target.anchor (root ++ p) = root ++ p := by
  rw [targetAt?_eq_some_iff, List.append_assoc] at hlink
  rw [Path.anchor, h.isAbsolute _ target hlink]
  rfl

/-- Names lead nowhere else than into the root. -/
theorem LinksStayIn.staysIn_names (h : d.LinksStayIn root) :
    d.StaysIn root (root ++ p) (names.map .name) := by
  -- Name by name. A link is gone through within the root, and behind its end there
  -- is one name less to go.
  induction names generalizing p with
  | nil =>
    intro q left hq
    cases hq
    exact List.prefix_append root p
  | cons n names ih =>
    intro q left hq
    cases hq with
    | refl => exact List.prefix_append root p
    | name _ hrest =>
      rw [List.append_assoc] at hrest
      exact ih q left hrest
    | @link _ _ _ _ _ target hlink hrest =>
      rw [h.anchor hlink] at hrest
      have hstays := h.staysIn p n target (targetAt?_eq_some_iff.1 hlink)
      rcases hrest.split with ⟨rest, hbefore, _⟩ | ⟨r, hend, hbehind⟩
      · exact hstays q rest hbefore
      · obtain ⟨p', rfl⟩ := hstays r [] hend
        exact ih q left hbehind

/-- Moves that do not go up stay in the root. -/
theorem LinksStayIn.staysIn_of_up (h : d.LinksStayIn root)
    (hup : .up ∈ steps → d.StaysIn root (root ++ p) steps) : d.StaysIn root (root ++ p) steps := by
  by_cases hmem : .up ∈ steps
  · exact hup hmem
  · obtain ⟨names, rfl⟩ := Step.exists_names hmem
    exact h.staysIn_names

/-- From the same place in both roots, going up leads to the same place if it
    leaves neither. -/
theorem exists_parent_eq (hd : root <+: (root ++ p).parent) (he : root' <+: (root' ++ p).parent) :
    ∃ q, (root ++ p).parent = root ++ q ∧ (root' ++ p).parent = root' ++ q := by
  rcases List.eq_nil_or_concat p with rfl | ⟨q, n, rfl⟩
  · have hnil : ∀ {root : Location}, root <+: (root ++ []).parent → root = [] := by
      intro root h
      have hlength := h.length_le
      rw [List.append_nil, Location.parent, List.length_dropLast] at hlength
      exact List.length_eq_zero_iff.1 (by omega)
    exact ⟨[], by rw [hnil hd]; rfl, by rw [hnil he]; rfl⟩
  · have hparent : ∀ root : Location, (root ++ (q ++ [n])).parent = root ++ q := by
      intro root
      rw [← List.append_assoc, Location.parent, List.dropLast_concat]
    rw [List.concat_eq_append]
    exact ⟨q, hparent root, hparent root'⟩

/-- From the same place in both roots, the moves leave neither of them; and, if that
    is asked, no path on the way is too long. -/
structure BothStay (d : Disk) (root : Location) (e : Disk) (root' : Location) (short : Prop)
    (p : Location) (steps : List Step) : Prop where
  staysIn : d.StaysIn root (root ++ p) steps
  staysIn' : e.StaysIn root' (root' ++ p) steps
  staysShort : short → d.StaysShort (root ++ p) steps
  staysShort' : short → e.StaysShort (root' ++ p) steps

namespace Relocated

theorem isDirectory_eq (h : d.Relocated root e root') :
    d.isDirectory (root ++ p) = e.isDirectory (root' ++ p) := by
  rw [Disk.isDirectory, Disk.isDirectory, h.entryAt?_eq]

theorem entryAt?_concat_eq (h : d.Relocated root e root') :
    d.entryAt? (root ++ p ++ [n]) = e.entryAt? (root' ++ p ++ [n]) := by
  rw [List.append_assoc, List.append_assoc, h.entryAt?_eq]

theorem targetAt?_concat_eq (h : d.Relocated root e root') :
    d.targetAt? (root ++ p ++ [n]) = e.targetAt? (root' ++ p ++ [n]) := by
  rw [targetAt?, targetAt?, h.entryAt?_concat_eq]

theorem isDirectory' (h : d.Relocated root e root') : e.isDirectory root' = true := by
  have hroot := @isDirectory_eq _ _ _ _ [] h
  rw [List.append_nil, List.append_nil] at hroot
  exact hroot ▸ h.isDirectory

theorem moved_concat : Location.Moved root root' (root ++ p ++ [n]) (root' ++ p ++ [n]) := by
  rw [List.append_assoc, List.append_assoc]
  exact .intro (p ++ [n])

end Relocated

namespace BothStay

theorem mono {short' : Prop} (h : BothStay d root e root' short p steps) (himp : short' → short) :
    BothStay d root e root' short' p steps :=
  ⟨h.staysIn, h.staysIn', fun hs => h.staysShort (himp hs), fun hs => h.staysShort' (himp hs)⟩

theorem of_append {behind : List Step} (h : BothStay d root e root' short p (steps ++ behind)) :
    BothStay d root e root' short p steps :=
  ⟨h.staysIn.of_append, h.staysIn'.of_append, fun hs => (h.staysShort hs).of_append,
    fun hs => (h.staysShort' hs).of_append⟩

theorem up (h : BothStay d root e root' short p (.up :: steps)) :
    ∃ q, (root ++ p).parent = root ++ q ∧ (root' ++ p).parent = root' ++ q ∧
      BothStay d root e root' short q steps := by
  have hin := Always.up h.staysIn
  have hin' := Always.up h.staysIn'
  obtain ⟨q, hq, hq'⟩ := exists_parent_eq hin.self hin'.self
  refine ⟨q, hq, hq', hq ▸ hin, hq' ▸ hin', fun hs => ?_, fun hs => ?_⟩
  · exact hq ▸ Always.up (h.staysShort hs)
  · exact hq' ▸ Always.up (h.staysShort' hs)

theorem name (h : BothStay d root e root' short p (.name n :: steps))
    (hsame : d.Relocated root e root') (hnone : d.targetAt? (root ++ p ++ [n]) = none) :
    BothStay d root e root' short (p ++ [n]) steps := by
  have hnone' := hsame.targetAt?_concat_eq ▸ hnone
  refine ⟨?_, ?_, fun hs => ?_, fun hs => ?_⟩ <;> rw [← List.append_assoc]
  · exact Always.name h.staysIn hnone
  · exact Always.name h.staysIn' hnone'
  · exact Always.name (h.staysShort hs) hnone
  · exact Always.name (h.staysShort' hs) hnone'

theorem link (h : BothStay d root e root' short p (.name n :: steps))
    (hsame : d.Relocated root e root') (hsome : d.targetAt? (root ++ p ++ [n]) = some target) :
    BothStay d root e root' short p (target.steps ++ steps) := by
  have hsome' := hsame.targetAt?_concat_eq ▸ hsome
  have hanchor := hsame.linksStayIn.anchor hsome
  have hanchor' := hsame.linksStayIn'.anchor hsome'
  refine ⟨?_, ?_, fun hs => ?_, fun hs => ?_⟩
  · exact hanchor ▸ Always.link h.staysIn hsome
  · exact hanchor' ▸ Always.link h.staysIn' hsome'
  · exact hanchor ▸ Always.link (h.staysShort hs) hsome
  · exact hanchor' ▸ Always.link (h.staysShort' hs) hsome'

/-- A lookup may pass the next name in both places. -/
theorem admits
    (h : BothStay d root e root' (rule.limitsPlaces = true) p (.name n :: steps)) :
    rule.admits (root ++ p ++ [n]) = true ∧ rule.admits (root' ++ p ++ [n]) = true := by
  cases hlimits : rule.limitsPlaces with
  | false => simp [Lookup.admits, hlimits]
  | true =>
    exact ⟨admits_of_lt (h.staysShort hlimits).next, admits_of_lt (h.staysShort' hlimits).next⟩

/-- Behind what the system finds in both places, the rest of the moves stay. -/
theorem of_finds {i j : Nat} {q : Location}
    (h : BothStay d root e root' short p (comps.filterMap Component.step? ++ steps))
    (hd : d.Finds i (root ++ p) comps (root ++ q))
    (he : e.Finds j (root' ++ p) comps (root' ++ q)) :
    BothStay d root e root' short q steps :=
  ⟨Always.of_reaches h.staysIn hd.reaches, Always.of_reaches h.staysIn' he.reaches,
    fun hs => Always.of_reaches (h.staysShort hs) hd.reaches,
    fun hs => Always.of_reaches (h.staysShort' hs) he.reaches⟩

end BothStay

namespace Relocated

theorem bothStay_names (h : d.Relocated root e root') :
    BothStay d root e root' False p (names.map .name) :=
  ⟨h.linksStayIn.staysIn_names, h.linksStayIn'.staysIn_names, nofun, nofun⟩

/-! ## Lookups -/

/-- A lookup that leaves neither root leads to the same place in both, or fails in
    the same way. -/
theorem follow_related (h : d.Relocated root e root') (hcomps : .root ∉ comps)
    (hstay : BothStay d root e root' (rule.limitsPlaces = true) p
      (comps.filterMap Component.step?)) :
    Except.Related Eq (Location.Moved root root') (d.follow rule k (root ++ p) comps)
      (e.follow rule k (root' ++ p) comps) := by
  -- On the budget, since a link's target may be longer than what is left of the
  -- route; between two links, on the route.
  induction k using Nat.strongRecOn generalizing p comps with
  | ind k ih =>
    induction comps generalizing p with
    | nil =>
      rw [follow_nil, follow_nil]
      exact .ok (.intro p)
    | cons c rest ihrest =>
      have hrest : .root ∉ rest := fun hmem => hcomps (List.mem_cons_of_mem c hmem)
      rcases c with _ | _ | _ | n
      · exact absurd List.mem_cons_self hcomps
      · rw [follow_here, follow_here, h.isDirectory_eq]
        split_ifs
        · exact ihrest hrest hstay
        · exact .error rfl
      · rw [follow_up, follow_up, h.isDirectory_eq]
        split_ifs
        · obtain ⟨q, hq, hq', hup⟩ := hstay.up
          rw [hq, hq']
          exact ihrest hrest hup
        · exact .error rfl
      · obtain ⟨hadmits, hadmits'⟩ := hstay.admits
        have hentries := @entryAt?_concat_eq _ _ _ _ p n h
        cases hentry : d.entryAt? (root ++ p ++ [n]) with
        | none =>
          rw [follow_name_of_missing hadmits hentry,
            follow_name_of_missing hadmits' (hentries.symm.trans hentry), h.isDirectory_eq]
          split_ifs
          · exact .error rfl
          · exact .error rfl
          · exact .ok moved_concat
          · exact .error rfl
        | some entry =>
          rw [hentry] at hentries
          cases htarget : entry.target? with
          | none =>
            rw [follow_name_of_entry hadmits hentry htarget,
              follow_name_of_entry hadmits' hentries.symm htarget, List.append_assoc,
              List.append_assoc]
            exact ihrest hrest (hstay.name h (by rw [targetAt?, hentry, Option.bind_some, htarget]))
          | some target =>
            have hsome : d.targetAt? (root ++ p ++ [n]) = some target := by
              rw [targetAt?, hentry, Option.bind_some, htarget]
            have hlink := targetAt?_eq_some_iff.1 hsome
            have hlink' := targetAt?_eq_some_iff.1 (h.targetAt?_concat_eq ▸ hsome)
            rw [follow_name_of_link hadmits hlink, follow_name_of_link hadmits' hlink']
            split_ifs
            · cases k with
              | zero => exact .error rfl
              | succ k =>
                have hbody : .root ∉ target.body ++ rest := by simp [target.root_notMem_body, hrest]
                have hmoves := hstay.link h hsome
                rw [← target.filterMap_step?_body_append] at hmoves
                dsimp only
                rw [h.linksStayIn.anchor hsome,
                  h.linksStayIn'.anchor (h.targetAt?_concat_eq ▸ hsome)]
                exact ih k (Nat.lt_succ_self k) hbody hmoves
            · exact .ok moved_concat

/-- Names lead to the same place in the tree from both roots. -/
theorem follow_names_related (h : d.Relocated root e root') (hrule : rule.limitsPlaces = false) :
    Except.Related Eq (Location.Moved root root')
      (d.follow rule k root (names.map fun n => .step (.name n)))
      (e.follow rule k root' (names.map fun n => .step (.name n))) := by
  have hshort : ¬ rule.limitsPlaces = true := by rw [hrule]; exact Bool.false_ne_true
  have hstay : BothStay d root e root' (rule.limitsPlaces = true) []
      ((names.map fun n => Component.step (.name n)).filterMap Component.step?) := by
    rw [Component.filterMap_step?_names]
    exact h.bothStay_names.mono hshort
  have hcomps : Component.root ∉ names.map fun n => Component.step (.name n) := by simp
  have hfollow := @follow_related _ _ _ _ _ rule k _ h hcomps hstay
  rwa [List.append_nil, List.append_nil] at hfollow

theorem lookupAt_related (h : d.Relocated root e root') (hrule : rule.limitsPlaces = false)
    (hbytes : (root ++ p).bytes < maxPathBytes) (hbytes' : (root' ++ p).bytes < maxPathBytes) :
    Except.Related Eq (Location.Moved root root') (d.lookupAt rule (root ++ p))
      (e.lookupAt rule (root' ++ p)) := by
  have hadmits : ∀ {bytes : Nat}, bytes < maxPathBytes → rule.admitsBytes bytes = true := by
    intro bytes hlt
    simp [Lookup.admitsBytes, hlt]
  have hnul : ∀ {d : Disk} {root : Location}, d.isDirectory root = true →
      (root ++ p).any Name.hasNul = p.any Name.hasNul := by
    intro d root hdir
    rw [List.any_append, not_hasNul_of_entryAt? (isDirectory_iff.1 hdir), Bool.false_or]
  rw [lookupAt, lookupAt, hadmits hbytes, hadmits hbytes', hnul h.isDirectory, hnul h.isDirectory']
  cases p.any Name.hasNul with
  | true => exact .error rfl
  | false =>
    have hroot := Location.bytes_lt_of_prefix (List.prefix_append root p) hbytes
    have hroot' := Location.bytes_lt_of_prefix (List.prefix_append root' p) hbytes'
    rw [List.map_append, List.map_append, follow_of_isDirectory h.isDirectory hroot,
      follow_of_isDirectory h.isDirectory' hroot']
    exact h.follow_names_related hrule

/-- What a path into the tree leads to is the same in both places. -/
theorem statusAt_eq (h : d.Relocated root e root') (hbytes : (root ++ p).bytes < maxPathBytes)
    (hbytes' : (root' ++ p).bytes < maxPathBytes) :
    d.statusAt (root ++ p) = e.statusAt (root' ++ p) := by
  refine ((h.lookupAt_related rfl hbytes hbytes').bind fun _ _ _ _ hmoved => ?_).eq
  obtain ⟨q⟩ := hmoved
  rw [found, found, h.entryAt?_eq]
  exact .refl (fun _ => rfl) (fun _ => rfl) _

/-! ## Walks -/

/-- A link leads to the same place in the tree, and the rest of the moves stay behind
    it; or it leads nowhere for the same reason. -/
theorem canonicalizeAt_related (h : d.Relocated root e root')
    (hstay : BothStay d root e root' True p (.name n :: steps))
    (htarget : d.targetAt? (root ++ p ++ [n]) = some target) :
    (∃ q, d.canonicalizeAt (root ++ p ++ [n]) = .ok (root ++ q) ∧
      e.canonicalizeAt (root' ++ p ++ [n]) = .ok (root' ++ q) ∧ d.LinkFree (root ++ q) ∧
      e.LinkFree (root' ++ q) ∧ BothStay d root e root' True q steps) ∨
    ∃ fault, d.canonicalizeAt (root ++ p ++ [n]) = .error fault ∧
      e.canonicalizeAt (root' ++ p ++ [n]) = .error fault := by
  have hbytes := (hstay.staysShort trivial).next
  have hbytes' := (hstay.staysShort' trivial).next
  have hentry := targetAt?_eq_some_iff.1 htarget
  have hentry' := targetAt?_eq_some_iff.1 (h.targetAt?_concat_eq.symm.trans htarget)
  have hone : BothStay d root e root' True p [.name n] :=
    @BothStay.of_append _ _ _ _ _ [.name n] _ steps hstay
  have hfollow := @follow_related _ _ _ _ _ .canonical maxLinks [.step (.name n)] h
    (by simp) (hone.mono fun _ => trivial)
  rw [← canonicalizeAt_concat hentry hbytes, ← canonicalizeAt_concat hentry' hbytes'] at hfollow
  rcases hfollow.ok_or_error with ⟨_, _, hq, hq', ⟨q⟩⟩ | ⟨fault, _, hf, hf', rfl⟩
  · obtain ⟨i, _, hfinds⟩ := (canonicalizeAt_concat_eq_ok_iff hentry hbytes).1 hq
    obtain ⟨j, _, hfinds'⟩ := (canonicalizeAt_concat_eq_ok_iff hentry' hbytes').1 hq'
    exact .inl ⟨q, hq, hq', hfinds.linkFree, hfinds'.linkFree, hstay.of_finds hfinds hfinds'⟩
  · exact .inr ⟨fault, hf, hf'⟩

/-- A walk that leaves neither root, and on which no path is too long, ends at the
    same place in the tree, or is refused for the same reason. -/
theorem walk_related (h : d.Relocated root e root') (hfree : d.LinkFree (root ++ p))
    (hfree' : e.LinkFree (root' ++ p)) (hstay : BothStay d root e root' True p steps) :
    Except.Related Eq (Location.Moved root root') (d.walk hops (root ++ p) steps)
      (e.walk hops (root' ++ p) steps) := by
  -- On the hops, since a link's moves may be more than are left; between two
  -- links followed by hand, on the moves.
  induction hops using Nat.strongRecOn generalizing p steps with
  | ind hops ih =>
    induction steps generalizing p with
    | nil =>
      rw [walk_nil, walk_nil]
      exact .ok (.intro p)
    | cons s rest ihrest =>
      cases s with
      | up =>
        obtain ⟨q, hq, hq', hup⟩ := hstay.up
        rw [walk_up, walk_up, hq, hq']
        exact ihrest (hq ▸ hfree.parent) (hq' ▸ hfree'.parent) hup
      | name n =>
        have hbytes := (hstay.staysShort trivial).next
        have hbytes' := (hstay.staysShort' trivial).next
        have hseen := linkTarget?_concat hfree hbytes
        have hseen' := (linkTarget?_concat hfree' hbytes').trans h.targetAt?_concat_eq.symm
        cases htarget : d.targetAt? (root ++ p ++ [n]) with
        | none =>
          have hconcat := hfree.concat fun _ => htarget
          have hconcat' := hfree'.concat fun _ => h.targetAt?_concat_eq.symm.trans htarget
          rw [walk_name (hseen.trans htarget), walk_name (hseen'.trans htarget), List.append_assoc,
            List.append_assoc]
          rw [List.append_assoc] at hconcat hconcat'
          exact ihrest hconcat hconcat' (hstay.name h htarget)
        | some target =>
          rw [walk_link (hseen.trans htarget), walk_link (hseen'.trans htarget)]
          rcases h.canonicalizeAt_related hstay htarget with
            ⟨q, hq, hq', hqfree, hqfree', hbehind⟩ | ⟨fault, hf, hf'⟩
          · rw [hq, hq']
            exact ihrest hqfree hqfree' hbehind
          · rw [hf, hf']
            cases fault with
            | notFound =>
              cases hops with
              | zero => exact .error rfl
              | succ hops =>
                dsimp only
                rw [h.linksStayIn.anchor htarget,
                  h.linksStayIn'.anchor (h.targetAt?_concat_eq.symm.trans htarget)]
                exact ih hops (Nat.lt_succ_self hops) hfree hfree' (hstay.link h htarget)
            | notDirectory | isDirectory | nameTooLong | tooManyLinks | noDevice | nulByte
            | notUtf8 => exact .error rfl

/-- So does a walk from the roots, which can only leave them by `..`. -/
theorem walkFrom_related (h : d.Relocated root e root')
    (hup : .up ∈ steps → d.StaysIn root root steps ∧ e.StaysIn root' root' steps)
    (hshort : d.StaysShort root steps) (hshort' : e.StaysShort root' steps) :
    Except.Related Eq (Location.Moved root root') (d.walkFrom root steps)
      (e.walkFrom root' steps) := by
  have hfree := (isPlain_of_isDirectory h.isDirectory).linkFree
  have hfree' := (isPlain_of_isDirectory h.isDirectory').linkFree
  have hstaysIn := @LinksStayIn.staysIn_of_up _ _ [] steps h.linksStayIn
  have hstaysIn' := @LinksStayIn.staysIn_of_up _ _ [] steps h.linksStayIn'
  have hwalk := @walk_related _ _ _ _ [] maxHops steps h
  rw [List.append_nil] at hstaysIn hstaysIn'
  rw [List.append_nil, List.append_nil] at hwalk
  refine hwalk hfree hfree' ⟨?_, ?_, ?_, ?_⟩ <;> rw [List.append_nil]
  · exact hstaysIn fun hmem => (hup hmem).1
  · exact hstaysIn' fun hmem => (hup hmem).2
  · exact fun _ => hshort
  · exact fun _ => hshort'

end Relocated

end Disk

end Docroot
