/-!
# Rosters

A roster holds at most one value per name and remembers in which order the names came in. Entering a
name again replaces its value where it stands; a name that is struck off and entered again comes
last.
-/

namespace NormalOrder

variable {α : Type}

/-- The entries after `value` has been entered under `name`. -/
def Roster.enter (name : String) (value : α) : List (String × α) → List (String × α)
  | [] => [(name, value)]
  | e :: rest => if e.1 = name then (name, value) :: rest else e :: enter name value rest

theorem Roster.map_fst_enter (name : String) (value : α) (entries : List (String × α)) :
    (enter name value entries).map Prod.fst =
      if name ∈ entries.map Prod.fst then entries.map Prod.fst
      else entries.map Prod.fst ++ [name] := by
  induction entries with
  | nil => simp [enter]
  | cons e rest ih =>
    by_cases h : e.1 = name
    · simp [enter, h]
    · have h' : ¬name = e.1 := fun he => h he.symm
      simp only [enter, h, if_false, List.map_cons, ih, List.mem_cons, h', false_or]
      split <;> simp

structure Roster (α : Type) where
  entries : List (String × α)
  nodup : (entries.map Prod.fst).Nodup

namespace Roster

def empty : Roster α := ⟨[], List.nodup_nil⟩

instance : Inhabited (Roster α) := ⟨empty⟩

def names (r : Roster α) : List String := r.entries.map Prod.fst

def size (r : Roster α) : Nat := r.entries.length

def find? (r : Roster α) (name : String) : Option α := r.entries.lookup name

def contains (r : Roster α) (name : String) : Bool := r.names.contains name

def insert (r : Roster α) (name : String) (value : α) : Roster α where
  entries := enter name value r.entries
  nodup := by
    rw [map_fst_enter]
    split
    · exact r.nodup
    · next h =>
      refine List.nodup_append.2 ⟨r.nodup, by simp, ?_⟩
      intro a ha b hb hab
      simp only [List.mem_singleton] at hb
      exact h (by rw [← hb, ← hab]; exact ha)

def erase (r : Roster α) (name : String) : Roster α where
  entries := r.entries.filter fun e => e.1 ≠ name
  nodup := List.Sublist.nodup (List.Sublist.map Prod.fst List.filter_sublist) r.nodup

/-- The same names in the same order with other values. -/
def mapValues (r : Roster α) (f : α → α) : Roster α where
  entries := r.entries.map fun e => (e.1, f e.2)
  nodup := by
    rw [List.map_map]
    exact r.nodup

/-- Enters the pairs from first to last. -/
def ofList (pairs : List (String × α)) : Roster α :=
  pairs.foldl (fun r p => r.insert p.1 p.2) empty

/-- A name keeps its place when it is entered again and comes last when it is new. -/
theorem names_insert (r : Roster α) (name : String) (value : α) :
    (r.insert name value).names = if name ∈ r.names then r.names else r.names ++ [name] :=
  map_fst_enter name value r.entries

theorem find?_insert (r : Roster α) (name other : String) (value : α) :
    (r.insert name value).find? other = if other = name then some value else r.find? other := by
  unfold insert find?
  simp only
  induction r.entries with
  | nil =>
    by_cases h : other = name
    · simp [enter, h]
    · simp [enter, List.lookup_cons, h, beq_eq_false_iff_ne.2 h]
  | cons e rest ih =>
    obtain ⟨key, stored⟩ := e
    by_cases he : key = name
    · subst he
      by_cases h : other = key
      · simp [enter, h]
      · simp [enter, List.lookup_cons, h, beq_eq_false_iff_ne.2 h]
    · by_cases h : other = key
      · subst h
        simp [enter, he]
      · simp only [enter, he, if_false, List.lookup_cons, beq_eq_false_iff_ne.2 h]
        exact ih

end Roster

end NormalOrder
