import NormalOrder.Proofs.Alike
import NormalOrder.Proofs.Recovery
import NormalOrder.Text.Utf8.RoundTrip

/-!
# Lines of a file can be typed in

A file is cut into statements before any of them runs. The shell takes the same lines one by one: it
drops blanks around the first line of a statement, looks for commands and for the end of the input,
and runs every statement as soon as it is complete. If a file can be loaded, both ways lead to the
same bindings and print the same. In particular, no line of such a file can be taken for a command:
its mark would be part of a statement, and no statement has one.
-/

namespace NormalOrder

open NormalOrder.Action Statement Session

section Lines

variable {line : String} {c : Char}

/-- What is pending is part of the statement that it becomes. -/
theorem Statement.exists_mem_collect {p : Numbered} (hblank : Text.isBlank c = false)
    (hp : Uncommented p.text.toList) (hc : c ∈ p.text.toList) (n : Nat) (lines : List String) :
    ∃ s ∈ collect (some p) n lines, c ∈ s.text.toList := by
  induction lines generalizing p n with
  | nil => exact ⟨p, by simp [collect], hc⟩
  | cons line lines ih =>
    have hmem : c ∈ (tidy (joinLine p.text line)).toList := mem_tidy_joinLine hp hblank (.inl hc)
    rw [collect]
    split
    · exact ih (p := ⟨_, _⟩) (uncommented_tidy _) hmem (n + 1)
    · exact ⟨_, List.mem_cons_self, hmem⟩

theorem Statement.mem_dropComment_of_head (hc : c ≠ ';')
    (h : (Text.trim line).toList.head? = some c) : c ∈ dropComment line.toList := by
  obtain ⟨blanks, hblanks, hline⟩ := Text.Indents.trimStart line
  have hfront := List.rdropWhile_prefix Text.isBlank (Text.trimStart line).toList
  rw [← Text.toList_trimEnd] at hfront
  obtain ⟨rest, hrest⟩ := hfront
  obtain ⟨tail, htail⟩ := List.head?_eq_some_iff.1 h
  have hstart : (Text.trimStart line).toList = [c] ++ (tail ++ rest) := by
    rw [← hrest]
    exact congrArg (· ++ rest) htail
  have hsemicolon : ';' ∉ blanks ++ [c] := by
    have := Text.not_mem_of_isBlank hblanks (c := ';') (by decide)
    simp [this, Ne.symm hc]
  rw [hline, hstart, ← List.append_assoc, dropComment_append_of_not_mem hsemicolon]
  simp

end Lines

section Performed

variable {w w' : Workspace} {path : String}

/-- Statements that have been run are complete and have no mark of a command in them. -/
theorem Session.of_perform {s : Numbered} (h : perform path s w = .ok () w') :
    goesOn s.text = false ∧ CommandLine.mark ∉ s.text.toList := by
  rcases parse_of_perform h with hblank | ⟨statement, hparse⟩
  · have hall : ∀ c ∈ s.text.toList, Text.isBlank c = true := List.all_eq_true.1 hblank
    have hcount : s.text.toList.count '(' = 0 :=
      List.count_eq_zero_of_not_mem (Text.not_mem_of_isBlank hall (by decide))
    refine ⟨?_, Text.not_mem_of_isBlank hall (by decide)⟩
    simp [goesOn, hcount]
  · exact ⟨goesOn_of_parse hparse, not_mem_of_parse hparse (by decide) (by decide) (by decide)⟩

theorem Session.forall_of_forM_perform {ss : List Numbered}
    (h : ss.forM (perform path) w = .ok () w') :
    ∀ s ∈ ss, goesOn s.text = false ∧ CommandLine.mark ∉ s.text.toList := by
  induction ss generalizing w with
  | nil => simp
  | cons s ss ih =>
    obtain ⟨_, w₁, hs, hss⟩ := bind_eq_ok h
    exact List.forall_mem_cons.2 ⟨of_perform hs, ih hss⟩

theorem Session.perform_of_blank {s : Numbered} (hblank : Text.isBlankText s.text = true)
    (hresults : w.session.results = []) : perform path s w = .ok () w := by
  have hsession : { w.session with results := [] } = w.session := by rw [← hresults]
  rw [perform, bind_of_ok (add_of_blank s.number path hblank w), flush_apply, hresults, hsession]
  rfl

theorem Session.results_of_perform {s : Numbered} (h : perform path s w = .ok () w') :
    w'.session.results = [] := by
  obtain ⟨_, w₁, -, hflush⟩ := bind_eq_ok h
  rw [flush_apply] at hflush
  cases hflush
  rfl

end Performed

namespace Shell

open Turn

variable {line : String} {s s' : Shell} {w w₁ : Workspace} {path : String}
    {pending : Option Numbered}

theorem ofLine_of_no_mark (hend : Text.trim line ≠ CommandLine.endWord)
    (hmark : (Text.trim line).toList.head? ≠ some CommandLine.mark) :
    CommandLine.ofLine line = ⟨"", Text.trim line, Text.trim line⟩ := by
  simp only [CommandLine.ofLine, if_neg hend]
  cases hchars : (Text.trim line).toList with
  | nil => rfl
  | cons c rest =>
    have hc : c ≠ CommandLine.mark := by
      rintro rfl
      exact hmark (by rw [hchars]; rfl)
    exact if_neg hc

/-- A line that is neither the end of the input nor a command is part of a statement, or blank. -/
theorem route_of_no_mark (hend : Text.trim line ≠ CommandLine.endWord)
    (hmark : (Text.trim line).toList.head? ≠ some CommandLine.mark) :
    s.route line =
      if s.pending.isEmpty then
        if (Text.trim line).isEmpty then .blank else .statement (Text.trim line)
      else .statement line := by
  have hword : ¬"" = CommandLine.endWord := by decide
  rw [route, ofLine_of_no_mark hend hmark]
  simp only [if_neg hword, if_pos hmark]
  cases s.pending.isEmpty <;> simp

def Resumes : Option Numbered → String → Prop
  | none, text => text = ""
  | some p, text => Text.Indents p.text text ∧ goesOn p.text = true ∧ Uncommented p.text.toList

/-- The shell has come as far as the file, of which the statements before the pending one have been
run. -/
structure InStep (pending : Option Numbered) (w : Workspace) (s : Shell) : Prop where
  alike : Alike w s.workspace
  results : w.session.results = []
  resumes : Resumes pending s.pending

def extended (pending : Option Numbered) (line : String) : String :=
  tidy (joinLine ((pending.map (·.text)).getD "") line)

theorem collect_cons (pending : Option Numbered) (n : Nat) (line : String) (rest : List String) :
    ∃ number, collect pending n (line :: rest) =
      if goesOn (extended pending line) then
        collect (some ⟨extended pending line, number⟩) (n + 1) rest
      else ⟨extended pending line, number⟩ :: collect none (n + 1) rest := by
  refine ⟨(pending.map (·.number)).getD n, ?_⟩
  rw [collect, extended]

namespace Resumes

variable {text : String}

theorem uncommented (h : Resumes pending text) :
    Uncommented ((pending.map (·.text)).getD "").toList := by
  cases pending with
  | none => rfl
  | some p => exact h.2.2

theorem eq_none (h : Resumes pending "") : pending = none := by
  cases pending with
  | none => rfl
  | some p =>
    obtain ⟨hindents, hgoes, -⟩ := h
    rw [← hindents.goesOn] at hgoes
    cases hgoes

/-- What a line adds to what is pending is the same in the file and in the shell. -/
theorem indents (h : Resumes pending text) (hne : text ≠ "") (line : String) :
    Text.Indents (extended pending line) (tidy (joinLine text line)) := by
  cases pending with
  | none => exact absurd h hne
  | some p =>
    obtain ⟨hindents, hgoes, -⟩ := h
    have hp : p.text ≠ "" := by
      intro hempty
      rw [hempty] at hgoes
      cases hgoes
    have hfile : joinLine p.text line = p.text ++ " " ++ line := if_neg (by simpa using hp)
    have hshell : joinLine text line = text ++ " " ++ line := if_neg (by simpa using hne)
    have hjoined : Text.Indents (joinLine p.text line) (joinLine text line) := by
      rw [hfile, hshell]
      exact (hindents.append " ").append line
    exact hjoined.tidy

end Resumes

section Step

variable {n : Nat} {rest : List String}
  (hrun : (collect pending n (line :: rest)).forM (perform path) w = .ok () w₁)

include hrun

/-- No line of a file that is run starts with the mark of a command. -/
theorem no_mark_of_forM_perform (hpending : Uncommented ((pending.map (·.text)).getD "").toList) :
    (Text.trim line).toList.head? ≠ some CommandLine.mark := by
  intro hmark
  have hmem : CommandLine.mark ∈ (extended pending line).toList :=
    mem_tidy_joinLine hpending (by decide) (.inr (mem_dropComment_of_head (by decide) hmark))
  obtain ⟨t, ht, htmark⟩ :
      ∃ t ∈ collect pending n (line :: rest), CommandLine.mark ∈ t.text.toList := by
    obtain ⟨number, hcollect⟩ := collect_cons pending n line rest
    rw [hcollect]
    split
    · exact exists_mem_collect (p := ⟨_, _⟩) (by decide) (uncommented_tidy _) hmem (n + 1) rest
    · exact ⟨_, List.mem_cons_self, hmem⟩
  exact (forall_of_forM_perform hrun t ht).2 htmark

/-- A line that the shell takes as part of a statement takes it as far as the file. -/
theorem step_of_statement (hstep : InStep pending w s) {line' : String}
    (hroute : s.route line = .statement line')
    (hindents : Text.Indents (extended pending line) (s.statementWith line')) :
    ∃ pending' w' s', dispatch line s = .ok false s' ∧ InStep pending' w' s' ∧
      (collect pending' (n + 1) rest).forM (perform path) w' = .ok () w₁ := by
  obtain ⟨number, hcollect⟩ := collect_cons pending n line rest
  rw [hcollect] at hrun
  rw [dispatch_eq, hroute]
  cases hgoes : goesOn (extended pending line) with
  | true =>
    rw [hgoes, if_pos rfl] at hrun
    have hturn := runStatement_of_goesOn (hindents.goesOn.trans hgoes)
    exact ⟨some ⟨_, number⟩, w, _, bind_of_ok hturn,
      ⟨hstep.alike, hstep.results, hindents, hgoes, uncommented_tidy _⟩, hrun⟩
  | false =>
    rw [hgoes, if_neg Bool.false_ne_true] at hrun
    obtain ⟨_, w', hperform, hrest⟩ := bind_eq_ok hrun
    obtain ⟨v', hcomplete, halike⟩ :=
      simulates_perform hindents number (s.lineNumber + 1) path s.workspace.session.path
        w s.workspace () w' hstep.alike hperform
    have hturn : runStatement line' s = .ok () { s.completed with workspace := v' } := by
      rw [runStatement_of_not_goesOn (hindents.goesOn.trans hgoes), complete]
      exact ofAction_of_ok hcomplete
    exact ⟨none, w', _, bind_of_ok hturn, ⟨halike, results_of_perform hperform, rfl⟩, hrest⟩

/-- Every line of a file takes the shell as far as the file. -/
theorem step_of_line (hend : Text.trim line ≠ CommandLine.endWord) (hstep : InStep pending w s) :
    ∃ pending' w' s', dispatch line s = .ok false s' ∧ InStep pending' w' s' ∧
      (collect pending' (n + 1) rest).forM (perform path) w' = .ok () w₁ := by
  have hmark := no_mark_of_forM_perform hrun hstep.resumes.uncommented
  have hroute := route_of_no_mark (s := s) hend hmark
  by_cases hpending : s.pending = ""
  · have hresumes := hstep.resumes
    rw [hpending] at hresumes
    obtain rfl := hresumes.eq_none
    have hindents : Text.Indents (extended none line) (tidy (Text.trim line)) := .tidy_trim line
    have hempty : s.pending.isEmpty = true := by simpa using hpending
    rw [if_pos hempty] at hroute
    split at hroute
    · next htrim =>
      -- The shell leaves out a blank line, which is a statement of the file that does nothing.
      rw [String.isEmpty_iff.1 htrim] at hindents
      obtain ⟨number, hcollect⟩ := collect_cons none n line rest
      have hgoes : goesOn (extended none line) = false := hindents.goesOn.symm
      have hblank : Text.isBlankText (extended none line) = true := hindents.isBlankText.symm
      rw [hcollect, hgoes, if_neg Bool.false_ne_true] at hrun
      have hperform : perform path ⟨extended none line, number⟩ w = .ok () w :=
        perform_of_blank hblank hstep.results
      have hrest := (bind_of_ok hperform).symm.trans hrun
      refine ⟨none, w, s, ?_, hstep, hrest⟩
      rw [dispatch_eq, hroute]
      rfl
    · have hwith : s.statementWith (Text.trim line) = tidy (Text.trim line) := by
        rw [statementWith, joinLine, if_pos hempty]
      exact step_of_statement hrun hstep hroute (hwith ▸ hindents)
  · have hempty : ¬s.pending.isEmpty = true := by simpa using hpending
    rw [if_neg hempty] at hroute
    exact step_of_statement hrun hstep hroute (hstep.resumes.indents hpending line)

end Step

/-- The lines are run one after another. None of them fails, and none of them ends the shell. -/
inductive Passes : Shell → List String → Shell → Prop
  | nil (s : Shell) : Passes s [] s
  | cons {s s₁ s₂ : Shell} {line : String} {lines : List String}
    (hclean : failure? (dispatch line s) = none)
    (hrun : runLine line s = .ok false s₁) (hrest : Passes s₁ lines s₂) :
    Passes s (line :: lines) s₂

theorem passes_of_forM_perform {lines : List String} {n : Nat}
    (hend : ∀ line ∈ lines, Text.trim line ≠ CommandLine.endWord) (hstep : InStep pending w s)
    (hrun : (collect pending n lines).forM (perform path) w = .ok () w₁) :
    ∃ s₁, Passes s lines s₁ ∧ InStep none w₁ s₁ := by
  induction lines generalizing pending n w s with
  | nil =>
    cases pending with
    | none =>
      cases hrun
      exact ⟨s, .nil s, hstep⟩
    | some p =>
      -- The last statement would not be complete.
      obtain ⟨-, hgoes, -⟩ := hstep.resumes
      obtain ⟨hcomplete, -⟩ := forall_of_forM_perform hrun p (by simp [collect])
      rw [hcomplete] at hgoes
      cases hgoes
  | cons line lines ih =>
    obtain ⟨hline, hlines⟩ := List.forall_mem_cons.1 hend
    obtain ⟨pending', w', s', hdispatch, hstep', hrest⟩ := step_of_line hrun hline hstep
    obtain ⟨s₁, hpasses, hstep₁⟩ := ih hlines hstep' hrest
    refine ⟨s₁, .cons ?_ (runLine_of_ok hdispatch) hpasses, hstep₁⟩
    rw [hdispatch]
    rfl

/-- What is left to do for a file after its statements is neither seen in the bindings nor
printed. -/
theorem exists_forM_perform_of_load {text : String}
    (hfile : w.files.read path = .ok (Text.Utf8.encode text))
    (h : Session.load path w = .ok () w₁) :
    ∃ w₂, (statements (Text.lines text)).forM (perform path) (w.register path none) = .ok () w₂ ∧
      w₁.session.environment = w₂.session.environment ∧ w₁.printed = w₂.printed := by
  rw [load_apply, hfile] at h
  simp only [Text.Utf8.decode_encode] at h
  rw [runText, bind_of_ok (session_eq_ok _)] at h
  obtain ⟨_, w₂, hstatements, hend⟩ := bind_eq_ok h
  refine ⟨w₂, hstatements, ?_⟩
  cases hend
  refine ⟨rfl, ?_⟩
  simp [Workspace.printed, Event.printed?]

/-- If the file made of some lines can be loaded where no results wait to be shown, then the lines
can be typed into a shell on the same session, unless one of them is the word for the end of the
input. None of them fails or ends the shell, no statement is left unfinished, the bindings come out
the same and in the same order, and the same is printed. -/
theorem typed_lines_agree_with_load (w w₁ : Workspace) (path text : String) (lines : List String)
    (hlines : Text.MadeOf text lines) (hend : ∀ line ∈ lines, Text.trim line ≠ CommandLine.endWord)
    (hfile : w.files.read path = .ok (Text.Utf8.encode text)) (hresults : w.session.results = [])
    (hload : Session.load path w = .ok () w₁) :
    ∃ s, Passes (Shell.start w) lines s ∧ s.pending = "" ∧
      s.workspace.session.environment = w₁.session.environment ∧
      s.workspace.printed = w₁.printed := by
  obtain ⟨w₂, hstatements, henv, hprinted⟩ := exists_forM_perform_of_load hfile hload
  have hstart : InStep none (w.register path none) (Shell.start w) :=
    ⟨⟨⟨_, rfl⟩, rfl, rfl, rfl⟩, hresults, rfl⟩
  rw [hlines.lines_eq] at hstatements
  obtain ⟨s, hpasses, hstep⟩ := passes_of_forM_perform hend hstart hstatements
  obtain ⟨reporter, hsession⟩ := hstep.alike.session
  refine ⟨s, hpasses, hstep.resumes, ?_, hstep.alike.printed.trans hprinted.symm⟩
  rw [henv, hsession]

/-- A file with comments, indentations, a blank line within a statement and a traced evaluation. -/
theorem typed_lines_agree_with_load_comments :
    let text := "  id = \\x. x  ;; identity\n\n(id   ;; goes on\n\n   y)\n\t;; end"
    let lines := ["  id = \\x. x  ;; identity", "", "(id   ;; goes on", "", "   y)", "\t;; end"]
    let w : Workspace :=
      { session := Session.start "<in>" { trace := true } true
        files := Files.add {} "f.lc" (Text.Utf8.encode text)
        patience := 10 }
    ∃ w₁ s, Session.load "f.lc" w = .ok () w₁ ∧ Passes (Shell.start w) lines s ∧
      s.pending = "" ∧ s.workspace.session.environment.entries = [("id", .lam "x" (.var "x"))] ∧
      s.workspace.printed = ["  → (λx. x) y\n", "  → y\n", "y\n"] := by
  intro text lines w
  have hlines : Text.MadeOf text lines := by
    have htext : text = "  id = \\x. x  ;; identity" ++ "\n" ++
      ("" ++ "\n" ++ ("(id   ;; goes on" ++ "\n" ++
        ("" ++ "\n" ++ ("   y)" ++ "\n" ++ "\t;; end")))) := by decide +kernel
    -- Only the characters of the line are to be looked at, not all that there are.
    have hplain {l : String} (hl : l.toList.all (fun c => c ≠ '\n' ∧ c ≠ '\r') = true) :
        ∀ c ∈ l.toList, c ≠ '\n' ∧ c ≠ '\r' :=
      fun c hc => of_decide_eq_true (List.all_eq_true.1 hl c hc)
    rw [htext]
    refine .cons ?_ (.cons ?_ (.cons ?_ (.cons ?_ (.cons ?_ (.last (by decide) ?_)))))
    all_goals exact hplain (by decide +kernel)
  obtain ⟨hload, hend, hfile, henv, hprinted⟩ :
      failure? (Session.load "f.lc" w) = none ∧
      (∀ line ∈ lines, Text.trim line ≠ CommandLine.endWord) ∧
      w.files.read "f.lc" = .ok (Text.Utf8.encode text) ∧
      (Action.stateLeft (Session.load "f.lc" w)).session.environment.entries =
        [("id", .lam "x" (.var "x"))] ∧
      (Action.stateLeft (Session.load "f.lc" w)).printed =
        ["  → (λx. x) y\n", "  → y\n", "y\n"] := by
    decide +kernel
  have hresults : w.session.results = [] := rfl
  clear_value w
  obtain ⟨_, w₁, hok⟩ := exists_ok hload
  obtain ⟨s, hpasses, hpending, henv', hprinted'⟩ :=
    typed_lines_agree_with_load w w₁ "f.lc" text lines hlines hend hfile hresults hok
  rw [hok] at henv hprinted
  exact ⟨w₁, s, hok, hpasses, hpending, henv' ▸ henv, hprinted'.trans hprinted⟩

end Shell

end NormalOrder
