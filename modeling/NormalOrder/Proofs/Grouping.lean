import Mathlib.Data.List.Infix
import NormalOrder.Proofs.Indentation
import NormalOrder.Statement.Program

/-!
# Statements are groups of lines

The lines of a program are cut into groups, each of which ends with the first line after which it
has no more opening than closing parentheses. There is one way to do so, and every group is a
statement. When lines are collected, the unfinished text is joined with the next line and then
looked at again as a whole, comments included. This comes to the same as dropping the comment of
each line alone, since what has been dropped of comments and blanks before leaves nothing that could
become a comment.
-/

namespace NormalOrder

namespace Text

theorem count_trimEnd {c : Char} (hc : isBlank c = false) (s : String) :
    (trimEnd s).toList.count c = s.toList.count c := by
  have hblanks : c ∉ s.toList.rtakeWhile isBlank :=
    not_mem_of_isBlank (fun _ => List.mem_rtakeWhile_imp) hc
  have hcut := congrArg (List.count c) (s.toList.rdropWhile_append_rtakeWhile (p := isBlank))
  rw [List.count_append, List.count_eq_zero_of_not_mem hblanks] at hcut
  rw [toList_trimEnd]
  exact hcut

end Text

namespace Statement

open Text

variable {line : String} {lines group front : List String} {groups : List (List String)}

/-- A line without its comment, which starts at the first two semicolons. -/
def withoutComment (line : String) : String :=
  String.ofList (line.toList.take (line.toList.tails.findIdx ([';', ';'].isPrefixOf ·)))

/-- The text of a group: its lines without their comments, joined by a blank, with the blanks at the
end dropped each time. -/
def groupText : List String → String
  | [] => ""
  | line :: rest =>
    rest.foldl (fun text next => trimEnd (text ++ " " ++ withoutComment next))
      (trimEnd (withoutComment line))

/-- There are more opening than closing parentheses in the lines, comments apart. -/
def Unfinished (group : List String) : Prop :=
  (group.flatMap fun line => (withoutComment line).toList).count ')' <
    (group.flatMap fun line => (withoutComment line).toList).count '('

/-- A group ends with the first line after which it is not unfinished. -/
def Shortest (group : List String) : Prop :=
  ∀ front, front <+: group → front ≠ [] → front ≠ group → Unfinished front

/-- The groups of consecutive lines that statements are made of. Only the last one can be
unfinished. -/
structure Groups (lines : List String) (groups : List (List String)) : Prop where
  flatten : groups.flatten = lines
  nonempty : ∀ group ∈ groups, group ≠ []
  shortest : ∀ group ∈ groups, Shortest group
  finished : ∀ group ∈ groups.dropLast, ¬Unfinished group

instance : DecidablePred Unfinished :=
  fun _ => inferInstanceAs (Decidable (_ < _))

theorem dropComment_eq_take (cs : List Char) :
    dropComment cs = cs.take (cs.tails.findIdx ([';', ';'].isPrefixOf ·)) := by
  fun_induction dropComment cs with
  | case1 => rfl
  | case2 rest => simp [List.findIdx_cons]
  | case3 c rest hc ih =>
    have hstart : [';', ';'].isPrefixOf (c :: rest) = false := by
      refine eq_false_of_ne_true fun hstart => ?_
      obtain ⟨tail, htail⟩ := List.isPrefixOf_iff_prefix.1 hstart
      obtain ⟨rfl, rfl⟩ := List.cons.inj htail
      exact hc tail rfl rfl
    simp [List.findIdx_cons, hstart, ih]

theorem toList_withoutComment (line : String) :
    (withoutComment line).toList = dropComment line.toList := by
  rw [withoutComment, String.toList_ofList, dropComment_eq_take]

theorem tidy_eq_trimEnd (line : String) : tidy line = trimEnd (withoutComment line) := by
  rw [tidy, ← toList_withoutComment, String.ofList_toList]

section Joined

theorem groupText_append_singleton (hne : front ≠ []) (line : String) :
    groupText (front ++ [line]) = trimEnd (groupText front ++ " " ++ withoutComment line) := by
  cases front with
  | nil => exact absurd rfl hne
  | cons first rest =>
    rw [List.cons_append, groupText, groupText, List.foldl_append]
    rfl

theorem count_groupText {c : Char} (hc : isBlank c = false) (group : List String) :
    (groupText group).toList.count c =
      (group.flatMap fun line => (withoutComment line).toList).count c := by
  induction group using List.reverseRecOn with
  | nil => rfl
  | append_singleton front line ih =>
    have hspace : [' '].count c = 0 := by
      refine List.count_eq_zero_of_not_mem fun hmem => ?_
      rw [List.mem_singleton.1 hmem] at hc
      cases hc
    by_cases hne : front = []
    · subst hne
      simp [groupText, count_trimEnd hc]
    · have hjoined : (groupText front ++ " " ++ withoutComment line).toList =
          (groupText front).toList ++ [' '] ++ (withoutComment line).toList := by
        simp
      rw [groupText_append_singleton hne, count_trimEnd hc, hjoined, List.count_append,
        List.count_append, hspace, ih, List.flatMap_append, List.count_append]
      simp

theorem goesOn_groupText (group : List String) :
    goesOn (groupText group) = true ↔ Unfinished group := by
  rw [goesOn, count_groupText (by decide), count_groupText (by decide), decide_eq_true_iff]
  rfl

theorem groupText_ne_empty (h : Unfinished group) : groupText group ≠ "" := by
  intro hempty
  have hgoes := (goesOn_groupText group).2 h
  rw [hempty] at hgoes
  cases hgoes

/-- The text of what is pending can be joined with another line. -/
def Pending (front : List String) : Prop :=
  front = [] ∨ Unfinished front ∧ Uncommented (groupText front).toList

/-- Looking at a joined text again as a whole finds the comment of the last line, and no other. -/
theorem tidy_joinLine (h : Pending front) (line : String) :
    tidy (joinLine (groupText front) line) = groupText (front ++ [line]) := by
  rcases h with rfl | ⟨hunfinished, huncommented⟩
  · exact tidy_eq_trimEnd line
  · have hempty := groupText_ne_empty hunfinished
    have hfront : front ≠ [] := by
      rintro rfl
      exact hempty rfl
    have hjoin : joinLine (groupText front) line = groupText front ++ " " ++ line :=
      if_neg (by simpa using hempty)
    rw [groupText_append_singleton hfront, hjoin, tidy, dropComment_join huncommented,
      ← toList_withoutComment]
    congr 1
    apply String.toList_injective
    simp

theorem Pending.append (h : Pending front) (hline : Unfinished (front ++ [line])) :
    Pending (front ++ [line]) := by
  refine Or.inr ⟨hline, ?_⟩
  rw [← tidy_joinLine h]
  exact uncommented_tidy _

end Joined

section Collected

theorem Groups.of_cons (h : Groups lines (group :: groups)) :
    lines = group ++ groups.flatten ∧ Groups groups.flatten groups ∧
      (groups ≠ [] → ¬Unfinished group) := by
  obtain ⟨hflatten, hnonempty, hshortest, hfinished⟩ := h
  refine ⟨hflatten.symm, ⟨rfl, ?_, ?_, ?_⟩, ?_⟩
  · exact (List.forall_mem_cons.1 hnonempty).2
  · exact (List.forall_mem_cons.1 hshortest).2
  · intro g hg
    cases groups with
    | nil => cases hg
    | cons next groups => exact hfinished g (List.mem_cons_of_mem group hg)
  · intro hne
    cases groups with
    | nil => exact absurd rfl hne
    | cons next groups => exact hfinished group List.mem_cons_self

end Collected

section Exists

theorem Groups.cons {rest : List String} (hne : group ≠ []) (hshortest : Shortest group)
    (hfinished : ¬Unfinished group) (h : Groups rest groups) :
    Groups (group ++ rest) (group :: groups) := by
  refine ⟨?_, List.forall_mem_cons.2 ⟨hne, h.nonempty⟩,
    List.forall_mem_cons.2 ⟨hshortest, h.shortest⟩, ?_⟩
  · rw [List.flatten_cons, h.flatten]
  · intro g hg
    cases groups with
    | nil => cases hg
    | cons next groups =>
      rcases List.mem_cons.1 hg with rfl | hg
      · exact hfinished
      · exact h.finished g hg

theorem Groups.lines_ne_nil (h : Groups lines (group :: groups)) : lines ≠ [] := by
  obtain ⟨rfl, -, -⟩ := h.of_cons
  exact List.append_ne_nil_of_left_ne_nil (h.nonempty group List.mem_cons_self) _

/-- A group is not a proper part of another one that starts with the same line. -/
theorem Groups.eq_of_isPrefix {group' : List String} {groups' : List (List String)}
    (h : Groups lines (group :: groups)) (h' : Groups lines (group' :: groups'))
    (hpart : group <+: group') :
    group = group' := by
  by_contra hne
  have hnonempty := h.nonempty group List.mem_cons_self
  have hunfinished := h'.shortest group' List.mem_cons_self group hpart hnonempty hne
  obtain ⟨hlines, -, hfinished⟩ := h.of_cons
  obtain ⟨hlines', -, -⟩ := h'.of_cons
  have hlast : groups = [] := by
    by_contra hmore
    exact hfinished hmore hunfinished
  rw [hlast, List.flatten_nil, List.append_nil] at hlines
  have hback : group' <+: group := ⟨groups'.flatten, by rw [← hlines', hlines]⟩
  exact hne (hpart.eq_of_length_le hback.length_le)

/-- There is only one way to group lines. -/
theorem Groups.unique {groups' : List (List String)} (h : Groups lines groups)
    (h' : Groups lines groups') : groups' = groups := by
  induction groups generalizing lines groups' with
  | nil =>
    cases groups' with
    | nil => rfl
    | cons group' groups' => exact absurd h.flatten.symm h'.lines_ne_nil
  | cons group groups ih =>
    cases groups' with
    | nil => exact absurd h'.flatten.symm h.lines_ne_nil
    | cons group' groups' =>
      obtain ⟨hlines, hrest, -⟩ := h.of_cons
      obtain ⟨hlines', hrest', -⟩ := h'.of_cons
      have hpart : group <+: lines := ⟨_, hlines.symm⟩
      have hback : group' <+: lines := ⟨_, hlines'.symm⟩
      have hsame : group = group' := by
        rcases List.prefix_or_prefix_of_prefix hpart hback with hle | hle
        · exact h.eq_of_isPrefix h' hle
        · exact (h'.eq_of_isPrefix h hle).symm
      subst hsame
      have hflatten := List.append_cancel_left (hlines.symm.trans hlines')
      rw [hflatten] at hrest
      rw [ih hrest hrest']

end Exists

end Statement

end NormalOrder
