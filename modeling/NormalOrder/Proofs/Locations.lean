import NormalOrder.Proofs.Roster
import NormalOrder.Report.Reporter

/-!
# What reports start with

While no line is registered, a report starts with the word that says what it is. While a single line
is registered, its file and number stand in front, wherever the file is among the others, and there
is no list of lines.
-/

namespace NormalOrder

namespace Traceback

def Clear (tb : Traceback) : Prop :=
  ∀ e ∈ tb.entries, e.2 = none

theorem clear_empty : Clear Roster.empty :=
  fun _ he => absurd he List.not_mem_nil

theorem clear_clearLines (tb : Traceback) : Clear tb.clearLines := by
  intro e he
  obtain ⟨_, _, rfl⟩ := List.mem_map.1 he
  rfl

namespace Clear

variable {tb : Traceback}

theorem insert_none (h : Clear tb) (path : String) : Clear (tb.insert path none) := by
  intro e he
  rcases Roster.mem_entries_of_insert he with rfl | he
  · rfl
  · exact h e he

theorem erase (h : Clear tb) (path : String) : Clear (tb.erase path) :=
  fun e he => h e (List.mem_filter.1 he).1

/-- Forgetting a line that was the only one leaves none. -/
theorem insert_insert_none (h : Clear tb) (path : String) (entry : Option Entry) :
    Clear ((tb.insert path entry).insert path none) := by
  rintro ⟨key, value⟩ he
  rw [← Roster.find?_eq_some_iff, Roster.find?_insert, Roster.find?_insert] at he
  split at he
  · cases he
    rfl
  · exact h _ (Roster.find?_eq_some_iff.1 he)

end Clear

def place : Option (String × Int) → Text.Styled
  | none => []
  | some (path, number) => Text.bold (path ++ ":" ++ toString number ++ ": ")

structure PointsTo (tb : Traceback) (origin : Option (String × Int)) : Prop where
  location : tb.location = place origin
  heading : tb.heading = place origin

/-- Where a key occurs once, at most one member with it is picked out. -/
theorem length_filterMap_le_one {α β : Type} {entries : List (String × α)}
    {f : String × α → Option β} (key : String) (hnodup : (entries.map Prod.fst).Nodup)
    (h : ∀ e ∈ entries, e.1 ≠ key → f e = none) : (entries.filterMap f).length ≤ 1 := by
  induction entries with
  | nil => simp
  | cons e entries ih =>
    obtain ⟨hnot, hrest⟩ := List.nodup_cons.1 hnodup
    obtain ⟨he, hentries⟩ := List.forall_mem_cons.1 h
    by_cases hkey : e.1 = key
    · have hnil : entries.filterMap f = [] := by
        refine List.filterMap_eq_nil_iff.2 fun e' he' => hentries e' he' ?_
        rintro rfl
        exact hnot (List.mem_map.2 ⟨e', he', hkey.symm⟩)
      rw [List.filterMap_cons, hnil]
      cases f e <;> simp
    · rw [List.filterMap_cons_none (he hkey)]
      exact ih hrest hentries

namespace Clear

variable {tb : Traceback} (h : Clear tb)

include h

/-- Without a line there is nothing in front. -/
theorem pointsTo_none : PointsTo tb none := by
  have hlocation : tb.location = [] := by
    have hnone : tb.entries.reverse.findSome? (fun e => e.2.map (e.1, ·)) = none := by
      rw [List.findSome?_eq_none_iff]
      intro e he
      rw [h e (List.mem_reverse.1 he)]
      rfl
    rw [location, hnone]
  have hshown : tb.shownLines = [] := by
    refine List.filterMap_eq_nil_iff.2 fun e he => ?_
    rw [h e he]
  refine ⟨hlocation, ?_⟩
  rw [heading, hshown]
  exact hlocation

/-- The only line is the innermost one, and it is not listed. -/
theorem pointsTo_insert (path : String) (entry : Entry) :
    PointsTo (tb.insert path (some entry)) (some (path, entry.number)) := by
  have hentries : ∀ e ∈ (tb.insert path (some entry)).entries, e = (path, some entry) ∨
      e.2 = none := by
    intro e he
    rcases Roster.mem_entries_of_insert he with rfl | he
    · exact .inl rfl
    · exact .inr (h e he)
  have hlocation : location (tb.insert path (some entry)) = place (some (path, entry.number)) := by
    cases hfound : (tb.insert path (some entry)).entries.reverse.findSome?
        (fun e => e.2.map (e.1, ·)) with
    | none =>
      have hself := List.findSome?_eq_none_iff.1 hfound (path, some entry)
        (List.mem_reverse.2 Roster.mem_entries_insert_self)
      cases hself
    | some found =>
      obtain ⟨e, he, hfe⟩ := List.exists_of_findSome?_eq_some hfound
      rcases hentries e (List.mem_reverse.1 he) with rfl | hnone
      · cases hfe
        rw [location, hfound]
        rfl
      · rw [hnone] at hfe
        cases hfe
  have hone : (shownLines (tb.insert path (some entry))).length ≤ 1 := by
    refine length_filterMap_le_one path (tb.insert path (some entry)).nodup fun e he hne => ?_
    rcases hentries e he with rfl | hnone
    · exact absurd rfl hne
    · rw [hnone]
  refine ⟨hlocation, ?_⟩
  simp only [heading, if_neg (Nat.not_lt.2 hone)]
  exact hlocation

end Clear

end Traceback

def Report.labels : List String := ["warning: ", "error: ", "[internal] error: "]

/-- Without colours, a report starts with the place of the statement that it is about, if it is
about one, and then says what it is. -/
def Report.Names (origin : Option (String × Int)) (report : Text.Styled) : Prop :=
  ∃ label ∈ labels, ∃ message,
    report.render false = (Traceback.place origin).render false ++ label ++ message

namespace Text.Styled

theorem render_append (colour : Bool) (t u : Styled) :
    (t ++ u).render colour = t.render colour ++ u.render colour := by
  rw [render, render, render, List.map_append, String.join_append]

theorem render_inked (ink : Ink) (text : String) : render false (inked ink text) = text := by
  simp [render, inked, Span.render]

end Text.Styled

namespace Traceback

theorem exists_render_body (d : Diagnostic) (label : String) (ink : Text.Ink) :
    ∃ message, (body d label ink).render false = label ++ message := by
  simp only [body, Text.Styled.render_append, Text.Styled.render_inked, String.append_assoc]
  exact ⟨_, rfl⟩

namespace PointsTo

variable {tb : Traceback} {origin : Option (String × Int)} (h : PointsTo tb origin) (d : Diagnostic)

include h

/-- An error is told as it would be with nothing registered, after the place. -/
theorem error_eq : tb.error d = place origin ++ error Roster.empty d := by
  have hempty : Traceback.heading Roster.empty = [] := rfl
  rw [error, error, h.heading, hempty, List.nil_append, List.append_assoc]

theorem names_warning : Report.Names origin (tb.warning d) := by
  obtain ⟨message, hbody⟩ := exists_render_body d "warning: " .magenta
  refine ⟨"warning: ", by decide, message, ?_⟩
  rw [warning, Text.Styled.render_append, hbody, h.location, String.append_assoc]

theorem names_error : Report.Names origin (tb.error d) := by
  obtain ⟨message, hbody⟩ := exists_render_body d "error: " .red
  rw [Report.Names, error, h.heading, Text.Styled.render_append, Text.Styled.render_append, hbody]
  cases d.internal with
  | true =>
    refine ⟨"[internal] error: ", by decide, message, ?_⟩
    have hlabel : "[internal] error: " = "[internal] " ++ "error: " := by decide
    rw [if_pos rfl, Text.Styled.render_inked, hlabel]
    simp only [String.append_assoc]
  | false =>
    refine ⟨"error: ", by decide, message, ?_⟩
    have hnil : Text.Styled.render false [] = "" := rfl
    rw [if_neg Bool.false_ne_true, hnil, String.append_empty, String.append_assoc]

end PointsTo

end Traceback

end NormalOrder
