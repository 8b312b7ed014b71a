import NormalOrder.Roster

/-!
# Entering several pairs

Pairs are entered one after another. Entering what is there already changes nothing, and a roster
can be made again by entering its pairs in order.
-/

namespace NormalOrder.Roster

variable {α : Type}

def insertAll (r : Roster α) (pairs : List (String × α)) : Roster α :=
  pairs.foldl (fun r p => r.insert p.1 p.2) r

theorem insertAll_cons (r : Roster α) (p : String × α) (pairs : List (String × α)) :
    r.insertAll (p :: pairs) = (r.insert p.1 p.2).insertAll pairs :=
  rfl

theorem eq_of_entries {r s : Roster α} (h : r.entries = s.entries) : r = s := by
  cases r
  cases s
  cases h
  rfl

theorem find?_eq_some_iff {r : Roster α} {name : String} {value : α} :
    r.find? name = some value ↔ (name, value) ∈ r.entries := by
  have hlookup : ∀ entries : List (String × α), (entries.map Prod.fst).Nodup →
      (entries.lookup name = some value ↔ (name, value) ∈ entries) := by
    intro entries hnodup
    induction entries with
    | nil => simp
    | cons e entries ih =>
      obtain ⟨key, stored⟩ := e
      obtain ⟨hkey, hrest⟩ := List.nodup_cons.1 hnodup
      by_cases h : name = key
      · subst h
        have hnot : (name, value) ∉ entries := fun hm => hkey (List.mem_map.2 ⟨_, hm, rfl⟩)
        simp [hnot, eq_comm]
      · simp [List.lookup_cons, beq_eq_false_iff_ne.2 h, h, ih hrest]
  exact hlookup r.entries r.nodup

theorem mem_entries_of_insert {r : Roster α} {name : String} {value : α} {e : String × α}
    (h : e ∈ (r.insert name value).entries) : e = (name, value) ∨ e ∈ r.entries := by
  obtain ⟨key, stored⟩ := e
  rw [← find?_eq_some_iff, find?_insert] at h
  split at h
  · next hkey =>
    subst hkey
    cases h
    exact Or.inl rfl
  · exact Or.inr (find?_eq_some_iff.1 h)

theorem mem_entries_insert_self {r : Roster α} {name : String} {value : α} :
    (name, value) ∈ (r.insert name value).entries := by
  rw [← find?_eq_some_iff, find?_insert, if_pos rfl]

/-- Names that are not among the pairs keep their values. -/
theorem find?_insertAll_of_not_mem {name : String} (r : Roster α) (pairs : List (String × α))
    (h : ∀ p ∈ pairs, p.1 ≠ name) : (r.insertAll pairs).find? name = r.find? name := by
  induction pairs generalizing r with
  | nil => rfl
  | cons p pairs ih =>
    obtain ⟨hp, hpairs⟩ := List.forall_mem_cons.1 h
    rw [insertAll_cons, ih _ hpairs, find?_insert, if_neg (fun he => hp he.symm)]

theorem enter_of_mem {name : String} {value : α} {entries : List (String × α)}
    (hnodup : (entries.map Prod.fst).Nodup) (h : (name, value) ∈ entries) :
    enter name value entries = entries := by
  induction entries with
  | nil => cases h
  | cons e entries ih =>
    obtain ⟨hkey, hrest⟩ := List.nodup_cons.1 hnodup
    rcases List.mem_cons.1 h with rfl | hmem
    · rw [enter, if_pos rfl]
    · have hne : e.1 ≠ name := by
        rintro rfl
        exact hkey (List.mem_map.2 ⟨_, hmem, rfl⟩)
      rw [enter, if_neg hne, ih hrest hmem]

theorem enter_of_not_mem {name : String} (value : α) {entries : List (String × α)}
    (h : name ∉ entries.map Prod.fst) : enter name value entries = entries ++ [(name, value)] := by
  induction entries with
  | nil => rfl
  | cons e entries ih =>
    obtain ⟨hne, hrest⟩ := not_or.1 (fun hm => h (List.mem_cons.2 hm))
    rw [enter, if_neg (fun he => hne he.symm), ih hrest, List.cons_append]

/-- Entering pairs that are there already changes nothing. -/
theorem insertAll_of_mem (r : Roster α) (pairs : List (String × α))
    (h : ∀ p ∈ pairs, p ∈ r.entries) : r.insertAll pairs = r := by
  induction pairs with
  | nil => rfl
  | cons p pairs ih =>
    obtain ⟨hp, hpairs⟩ := List.forall_mem_cons.1 h
    have hsame : r.insert p.1 p.2 = r := eq_of_entries (enter_of_mem r.nodup hp)
    rw [insertAll_cons, hsame, ih hpairs]

/-- Pairs with new names come behind those that are there. -/
theorem entries_insertAll_of_nodup (r : Roster α) (pairs : List (String × α))
    (h : ((r.entries ++ pairs).map Prod.fst).Nodup) :
    (r.insertAll pairs).entries = r.entries ++ pairs := by
  induction pairs generalizing r with
  | nil => rw [List.append_nil]; rfl
  | cons p pairs ih =>
    have hnew : p.1 ∉ r.entries.map Prod.fst := by
      rw [List.map_append] at h
      exact fun hm => (List.nodup_append.1 h).2.2 _ hm _ List.mem_cons_self rfl
    have hentries : (r.insert p.1 p.2).entries = r.entries ++ [p] := enter_of_not_mem p.2 hnew
    rw [insertAll_cons, ih, hentries, List.append_assoc, List.singleton_append]
    rw [hentries, List.append_assoc, List.singleton_append]
    exact h

/-- A roster is made again by entering its pairs in order. -/
theorem insertAll_empty (r : Roster α) : empty.insertAll r.entries = r :=
  eq_of_entries (entries_insertAll_of_nodup empty r.entries r.nodup)

end NormalOrder.Roster
