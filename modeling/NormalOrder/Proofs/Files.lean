import NormalOrder.Files.Basic

/-!
# What is written can be read

A path leads through directories, and a file is never put where a directory is. So what was on the
way before is still there after a file has been written, and the path leads to the file.
-/

namespace NormalOrder.Files

theorem lookup_filter_ne {α : Type} {place p : List String} (h : p ≠ place)
    (entries : List (List String × α)) :
    (entries.filter fun e => e.1 ≠ place).lookup p = entries.lookup p := by
  induction entries with
  | nil => rfl
  | cons e entries ih =>
    by_cases he : e.1 = place
    · have hkey : (p == e.1) = false := beq_eq_false_iff_ne.2 (he ▸ h)
      rw [List.filter_cons_of_neg (by simp [he]), ih, List.lookup_cons, hkey]
    · rw [List.filter_cons_of_pos (by simp [he]), List.lookup_cons, List.lookup_cons, ih]

variable {files : Files} {place : List String} (node : Node)

theorem node?_put_self (h : place ≠ []) : (files.put place node).node? place = some node := by
  rw [node?, List.isEmpty_eq_false_iff.2 h]
  exact List.lookup_cons_self

theorem node?_put_of_ne {p : List String} (h : p ≠ place) :
    (files.put place node).node? p = files.node? p := by
  have hkey : (p == place) = false := beq_eq_false_iff_ne.2 h
  rw [node?, node?, put, List.lookup_cons, hkey]
  simp only [lookup_filter_ne h]

theorem enter_eq_some_iff {p q : List String} {component : String} :
    files.enter p component = some q ↔
      q = next p component ∧ files.isDirectoryAt p = true ∧ (files.node? q).isSome = true := by
  rw [enter]
  split
  · next h =>
    obtain ⟨hp, hq⟩ := Bool.and_eq_true_iff.1 h
    constructor
    · rintro ⟨⟩
      exact ⟨rfl, hp, hq⟩
    · rintro ⟨rfl, -, -⟩
      rfl
  · next h =>
    constructor
    · rintro ⟨⟩
    · rintro ⟨rfl, hp, hq⟩
      exact absurd (Bool.and_eq_true_iff.2 ⟨hp, hq⟩) h

variable (hplace : place ≠ []) (hdir : files.isDirectoryAt place = false)

include hdir in
theorem isDirectoryAt_put {p : List String} (h : files.isDirectoryAt p = true) :
    (files.put place node).isDirectoryAt p = true := by
  have hne : p ≠ place := by
    rintro rfl
    exact Bool.false_ne_true (hdir.symm.trans h)
  rw [isDirectoryAt, node?_put_of_ne node hne]
  exact h

include hplace hdir

/-- A way that was there is still there. -/
theorem enter_put {p q : List String} {component : String}
    (h : files.enter p component = some q) : (files.put place node).enter p component = some q := by
  obtain ⟨hnext, hp, hq⟩ := enter_eq_some_iff.1 h
  refine enter_eq_some_iff.2 ⟨hnext, isDirectoryAt_put node hdir hp, ?_⟩
  by_cases he : q = place
  · rw [he, node?_put_self node hplace]
    rfl
  · rw [node?_put_of_ne node he]
    exact hq

theorem foldlM_enter_put {p q : List String} {components : List String}
    (h : components.foldlM files.enter p = some q) :
    components.foldlM (files.put place node).enter p = some q := by
  induction components generalizing p with
  | nil => exact h
  | cons component components ih =>
    obtain ⟨r, hr, hrest⟩ := Option.bind_eq_some_iff.1 h
    exact Option.bind_eq_some_iff.2 ⟨r, enter_put node hplace hdir hr, ih hrest⟩

omit hplace hdir

theorem next_of_isFileName {name : String} (h : isFileName name = true) (p : List String) :
    next p name = p ++ [name] := by
  simp only [isFileName, Bool.and_eq_true, Bool.not_eq_true', decide_eq_true_eq] at h
  obtain ⟨⟨⟨hempty, hdot⟩, hdots⟩, -⟩ := h
  rw [next, if_neg (by simp [hempty, hdot]), if_neg hdots]

theorem placeFor?_eq (files : Files) (path : String) :
    files.placeFor? path =
      if path.utf8ByteSize ≤ maxPathBytes then
        (route path).2.getLast?.bind fun name =>
          ((route path).2.dropLast.foldlM files.enter (route path).1).bind fun directory =>
            if isFileName name && files.isDirectoryAt directory &&
                !files.isDirectoryAt (directory ++ [name]) then
              some (directory ++ [name])
            else none
      else none := by
  by_cases h : path.utf8ByteSize ≤ maxPathBytes
  · have hguard : (guard (path.utf8ByteSize ≤ maxPathBytes) : Option Unit) = some () := if_pos h
    rw [placeFor?, hguard, if_pos h]
    rfl
  · have hguard : (guard (path.utf8ByteSize ≤ maxPathBytes) : Option Unit) = none := if_neg h
    rw [placeFor?, hguard, if_neg h]
    rfl

/-- What is known of a place where a file can be put. -/
theorem of_placeFor?_eq_some {path : String} {place : List String}
    (h : files.placeFor? path = some place) :
    path.utf8ByteSize ≤ maxPathBytes ∧ ∃ front name directory,
      (route path).2 = front ++ [name] ∧ front.foldlM files.enter (route path).1 = some directory ∧
      isFileName name = true ∧ files.isDirectoryAt directory = true ∧
      files.isDirectoryAt place = false ∧ place = directory ++ [name] := by
  rw [placeFor?_eq] at h
  split at h
  · next hsize =>
    obtain ⟨name, hlast, h⟩ := Option.bind_eq_some_iff.1 h
    obtain ⟨directory, hway, h⟩ := Option.bind_eq_some_iff.1 h
    split at h
    · next hok =>
      cases h
      simp only [Bool.and_eq_true, Bool.not_eq_true'] at hok
      obtain ⟨⟨hname, hdirectory⟩, hfree⟩ := hok
      obtain ⟨front, hroute⟩ := List.getLast?_eq_some_iff.1 hlast
      rw [hroute, List.dropLast_concat] at hway
      exact ⟨hsize, front, name, directory, hroute, hway, hname, hdirectory, hfree, rfl⟩
    · cases h
  · cases h

/-- A path leads to the file that was put where it says. -/
theorem find?_put_placeFor? {path : String} {place : List String}
    (h : files.placeFor? path = some place) (bytes : List UInt8) :
    (files.put place (.file bytes)).find? path = some (.file bytes) := by
  obtain ⟨hsize, front, name, directory, hroute, hway, hname, hdirectory, hfree, rfl⟩ :=
    of_placeFor?_eq_some h
  have hplace : directory ++ [name] ≠ [] := by simp
  have hpath : ¬(path.isEmpty = true ∨ maxPathBytes < path.utf8ByteSize) := by
    rintro (hempty | hlong)
    · obtain rfl := String.isEmpty_iff.1 hempty
      have hnil : (route "").2 = [] := by decide
      rw [hnil] at hroute
      cases front <;> cases hroute
    · omega
  have hlast : (files.put (directory ++ [name]) (.file bytes)).enter directory name =
      some (directory ++ [name]) := by
    refine enter_eq_some_iff.2 ⟨(next_of_isFileName hname directory).symm, ?_, ?_⟩
    · exact isDirectoryAt_put _ hfree hdirectory
    · rw [node?_put_self _ hplace]
      rfl
  have hresolve : (files.put (directory ++ [name]) (.file bytes)).resolve path =
      some (directory ++ [name]) := by
    rw [resolve, if_neg hpath, hroute, List.foldlM_append, foldlM_enter_put _ hplace hfree hway]
    exact Option.bind_eq_some_iff.2 ⟨_, rfl, Option.bind_eq_some_iff.2 ⟨_, hlast, rfl⟩⟩
  rw [Files.find?, hresolve, Option.bind_some, node?_put_self _ hplace]

section Opening

variable {path : String} {bytes : List UInt8}

/-- A path leads to the file that was written there last. -/
theorem read_of_write {files' : Files} (h : files.write path bytes = .ok files') :
    files'.read path = .ok bytes := by
  rw [write] at h
  split at h
  · cases h
  · next hnull =>
    split at h
    · next place hplace =>
      cases h
      rw [read, if_neg hnull, find?_put_placeFor? hplace bytes]
    · cases h

theorem read_eq_nullCharacter_iff :
    files.read path = .error .nullCharacter ↔ hasNull path = true := by
  rw [read]
  split
  · next hnull => simp [hnull]
  · next hnull =>
    cases files.find? path with
    | none => simp [hnull]
    | some node => cases node <;> simp [hnull]

theorem write_eq_nullCharacter_iff :
    files.write path bytes = .error .nullCharacter ↔ hasNull path = true := by
  rw [write]
  split
  · next hnull => simp [hnull]
  · next hnull => cases files.placeFor? path <;> simp [hnull]

end Opening

end NormalOrder.Files
