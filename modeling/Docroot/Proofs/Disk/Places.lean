import Docroot.Disk.Tree
import Mathlib.Data.List.Induction

/-!
# What stands where

`Disk.entryAt?` seen as the one view of a disk: an entry can only stand in a
directory, so every place on the way to an entry is a directory
(`isDirectory_of_entryAt?_append`), and the names in a directory are those
under which something stands in it (`mem_names_iff`).
-/

namespace Docroot

namespace Location

@[simp] theorem bytes_nil : bytes [] = 0 := rfl

@[simp] theorem bytes_cons (n : Name) (p : Location) : bytes (n :: p) = n.bytes + 1 + bytes p := rfl

theorem bytes_append (p q : Location) : (p ++ q).bytes = p.bytes + q.bytes := by
  induction p with
  | nil => simp
  | cons n p ih => rw [List.cons_append, bytes_cons, ih, bytes_cons, Nat.add_assoc (n.bytes + 1)]

/-- What is on the way to a place is no longer than the place. -/
theorem bytes_lt_of_prefix {p q : Location} {limit : Nat} (h : p <+: q) (hq : q.bytes < limit) :
    p.bytes < limit := by
  obtain ⟨r, rfl⟩ := h
  rw [bytes_append] at hq
  omega

end Location

theorem Name.isStorable_iff {n : Name} :
    n.isStorable = true ↔ n.bytes ≤ maxBytes ∧ n.hasNul = false := by
  simp [isStorable]

namespace Node

theorem find?_append (node : Node) (p q : Location) :
    node.find? (p ++ q) = (node.find? p).bind fun below => below.find? q := by
  induction p generalizing node with
  | nil => rfl
  | cons n p ih =>
    simp only [List.cons_append, find?]
    split
    · rw [Option.bind_assoc]
      congr 1
      funext child
      exact ih child
    · rfl

theorem find?_singleton (node : Node) (n : Name) :
    node.find? [n] = if n.isStorable then node.entries.lookup n else none := by
  simp only [find?]
  split
  · exact Option.bind_fun_some _
  · rfl

/-- Only a directory has something below it. -/
theorem entry_eq_directory {node below : Node} {n : Name} (h : node.find? [n] = some below) :
    node.entry = .directory := by
  rw [find?_singleton] at h
  cases node with
  | directory entries => rfl
  | file | link | special => simp [entries] at h

/-- What is looked up under a name is an entry of that name. -/
theorem mem_of_lookup {entries : List (Name × Node)} {child : Node} {n : Name}
    (h : entries.lookup n = some child) : (n, child) ∈ entries := by
  obtain ⟨before, behind, hentries, _⟩ := List.lookup_eq_some_iff.1 h
  rw [show entries = before ++ (n, child) :: behind from hentries]
  exact List.mem_append_right before List.mem_cons_self

/-- A directory without directories in it has nothing but its entries below it. -/
theorem mem_of_find?_of_flat {entries : List (Name × Node)} {below : Node} {n : Name}
    {place : Location} (hflat : ∀ entry ∈ entries, entry.2.entries = [])
    (h : (directory entries).find? (n :: place) = some below) :
    place = [] ∧ (n, below) ∈ entries := by
  rw [find?] at h
  split_ifs at h
  obtain ⟨child, hchild, hbelow⟩ := Option.bind_eq_some_iff.1 h
  have hmem := mem_of_lookup hchild
  cases place with
  | nil => exact ⟨rfl, Option.some.inj hbelow ▸ hmem⟩
  | cons m rest =>
    rw [find?, hflat _ hmem] at hbelow
    split_ifs at hbelow
    cases hbelow

/-- What is below a directory with one entry, and is no directory, is below that
    entry. -/
theorem exists_find?_of_singleton {n : Name} {child below : Node} {place : Location}
    (h : (directory [(n, child)]).find? place = some below)
    (hbelow : below.entry ≠ .directory) : ∃ rest, child.find? rest = some below := by
  cases place with
  | nil =>
    obtain rfl := Option.some.inj h
    exact absurd rfl hbelow
  | cons m rest =>
    rw [find?] at h
    split_ifs at h
    by_cases hm : m = n
    · subst hm
      exact ⟨rest, by simpa [entries] using h⟩
    · simp [entries, List.lookup_cons, beq_false_of_ne hm] at h

end Node

/-- The target of a link. -/
def Entry.target? : Entry → Option Path
  | link target => some target
  | _ => none

namespace Disk

/-- The target of the link at a location, if a link stands there. No lookup is
    made, so no limit plays a part. -/
def targetAt? (d : Disk) (place : Location) : Option Path :=
  (d.entryAt? place).bind Entry.target?

variable {d : Disk} {p q : Location} {n : Name} {entry : Entry} {target : Path}

theorem targetAt?_eq_some_iff :
    d.targetAt? p = some target ↔ d.entryAt? p = some (.link target) := by
  cases h : d.entryAt? p with
  | none => simp [targetAt?, h]
  | some entry => cases entry <;> simp [targetAt?, h, Entry.target?]

@[simp] theorem entryAt?_nil : d.entryAt? [] = some .directory := rfl

@[simp] theorem isDirectory_nil : d.isDirectory [] = true := rfl

theorem isDirectory_iff : d.isDirectory p = true ↔ d.entryAt? p = some .directory := by
  simp [isDirectory]

/-- What stands below a node is what stands in it. -/
theorem entryAt?_of_find? {node : Node} (h : d.tree.find? p = some node) (q : Location) :
    d.entryAt? (p ++ q) = (node.find? q).map Node.entry := by
  rw [entryAt?, Node.find?_append, h, Option.bind_some]

/-- An entry stands in a directory, under a name that can be stored. -/
theorem of_entryAt?_concat (h : d.entryAt? (p ++ [n]) = some entry) :
    d.isDirectory p = true ∧ n.isStorable = true := by
  simp only [entryAt?, Option.map_eq_some_iff, Node.find?_append, Option.bind_eq_some_iff] at h
  obtain ⟨below, ⟨node, hnode, hbelow⟩, _⟩ := h
  refine ⟨?_, ?_⟩
  · rw [isDirectory_iff, entryAt?, hnode, Option.map_some, Node.entry_eq_directory hbelow]
  · rw [Node.find?_singleton] at hbelow
    split at hbelow
    · assumption
    · cases hbelow

/-- Every place on the way to an entry is a directory. -/
theorem isDirectory_of_entryAt?_append (h : d.entryAt? (p ++ q) = some entry) (hq : q ≠ []) :
    d.isDirectory p = true := by
  -- From the end of the way: the directory that holds the entry is an entry
  -- itself, so the argument repeats for it.
  induction q using List.reverseRecOn generalizing entry with
  | nil => exact absurd rfl hq
  | append_singleton q n ih =>
    rw [← List.append_assoc] at h
    have hdir := (of_entryAt?_concat h).1
    rcases eq_or_ne q [] with rfl | hq'
    · simpa using hdir
    · exact ih (isDirectory_iff.1 hdir) hq'

/-- The names on the way to an entry can be stored. -/
theorem isStorable_of_mem (h : d.entryAt? p = some entry) : ∀ n ∈ p, n.isStorable = true := by
  induction p using List.reverseRecOn generalizing entry with
  | nil => exact fun _ hn => absurd hn List.not_mem_nil
  | append_singleton p n ih =>
    obtain ⟨hdir, hn⟩ := of_entryAt?_concat h
    intro m hm
    rcases List.mem_append.1 hm with hm | hm
    · exact ih (isDirectory_iff.1 hdir) m hm
    · rwa [List.mem_singleton.1 hm]

theorem isDirectory_parent (h : d.isDirectory p = true) : d.isDirectory p.parent = true := by
  rcases List.eq_nil_or_concat p with rfl | ⟨q, n, rfl⟩
  · rfl
  · rw [List.concat_eq_append] at h ⊢
    rw [Location.parent, List.dropLast_concat]
    exact (of_entryAt?_concat (isDirectory_iff.1 h)).1

/-- The names in a directory are those under which something stands in it. -/
theorem mem_names_iff : n ∈ d.names p ↔ (d.entryAt? (p ++ [n])).isSome := by
  simp only [names, entryAt?, Option.isSome_map, Node.find?_append]
  cases d.tree.find? p with
  | none => simp
  | some node =>
    simp only [Option.bind_some, Node.find?_singleton, List.mem_filter, List.mem_eraseDups]
    split
    · simp_all [List.lookup_isSome_iff]
    · simp_all

theorem nodup_eraseDups (names : List Name) : names.eraseDups.Nodup := by
  -- On the length, since behind the first name it goes on with the rest less the
  -- repetitions of that name, and not with the rest itself.
  induction h : names.length using Nat.strongRecOn generalizing names with
  | ind k ih =>
    cases names with
    | nil => exact List.nodup_nil
    | cons n names =>
      rw [List.eraseDups_cons, List.nodup_cons]
      refine ⟨by simp [List.mem_eraseDups], ih _ ?_ _ rfl⟩
      subst h
      exact Nat.lt_succ_of_le (List.length_filter_le _ _)

theorem nodup_names : (d.names p).Nodup := by
  rw [names]
  split
  · exact (nodup_eraseDups _).filter _
  · exact List.nodup_nil

end Disk

end Docroot
