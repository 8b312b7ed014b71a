import NormalOrder.Proofs.Answers
import NormalOrder.Proofs.Interactive

/-!
# Statements that go on

A statement may be typed in on several lines. The shell keeps the text of those it has, prompts for
the next one in another way, and takes every line as part of the statement until the parentheses are
closed, the line is given up or the input ends. What is kept is told here from the lines alone, as
they were typed: they are collected apart from the shell, and after any inputs the two agree.
-/

namespace NormalOrder

namespace Text

theorem not_isBlank_of_getLast?_trimEnd {s : String} {c : Char}
    (h : c ∈ (trimEnd s).toList.getLast?) : isBlank c = false := by
  obtain ⟨hne, hlast⟩ := List.mem_getLast?_eq_getLast h
  rw [hlast]
  simp only [toList_trimEnd] at hne ⊢
  exact eq_false_of_ne_true (List.rdropWhile_last_not isBlank s.toList hne)

end Text

namespace Statement

theorem Uncommented.not_isInfix {cs : List Char} (h : Uncommented cs) : ¬[';', ';'] <:+: cs := by
  rw [Uncommented] at h
  fun_induction Statement.dropComment cs with
  | case1 => simp
  | case2 rest => cases h
  | case3 c rest hc ih =>
    intro hinfix
    rcases List.infix_cons_iff.1 hinfix with ⟨tail, htail⟩ | hinfix
    · obtain ⟨rfl, rfl⟩ := List.cons.inj htail
      exact hc tail rfl rfl
    · exact ih (List.cons.inj h).2 hinfix

/-- The text of a group has lost the blanks at its end. -/
theorem exists_trimEnd_groupText (group : List String) : ∃ s, groupText group = Text.trimEnd s := by
  induction group using List.reverseRecOn with
  | nil => exact ⟨"", rfl⟩
  | append_singleton front line _ =>
    by_cases hfront : front = []
    · subst hfront
      exact ⟨withoutComment line, rfl⟩
    · exact ⟨_, groupText_append_singleton hfront line⟩

end Statement

namespace CommandLine

/-- The line is the word for the end of the input, or a command with this word for its name. -/
def EndsInput (line : String) : Prop :=
  Text.trim line = endWord ∨
    ∃ command rest, (Text.trim line).toList = mark :: command ∧
      (Text.trim (String.ofList command)).toList = endWord.toList ++ rest ∧
      ∀ c ∈ rest.head?, isWordPart c = false

theorem text_ofLine (line : String) : (ofLine line).text = Text.trim line := by
  rw [ofLine]
  split
  · rfl
  · cases (Text.trim line).toList with
    | nil => rfl
    | cons c rest =>
      dsimp only
      split <;> rfl

/-- A word is what stands in front of the first character that is no part of one. -/
theorem takeWhile_isWordPart_iff {word cs : List Char} (hword : ∀ c ∈ word, isWordPart c = true) :
    cs.takeWhile isWordPart = word ↔
      ∃ rest, cs = word ++ rest ∧ ∀ c ∈ rest.head?, isWordPart c = false := by
  constructor
  · rintro rfl
    refine ⟨cs.dropWhile isWordPart, List.takeWhile_append_dropWhile.symm, ?_⟩
    intro c hc
    have hhead := List.head?_dropWhile_not isWordPart cs
    rw [Option.mem_def.1 hc] at hhead
    exact hhead
  · rintro ⟨rest, rfl, hrest⟩
    have hnone : rest.takeWhile isWordPart = [] := by
      cases rest with
      | nil => rfl
      | cons c rest => exact List.takeWhile_cons_of_neg (by simpa using hrest c rfl)
    rw [List.takeWhile_append_of_pos hword, hnone, List.append_nil]

theorem fst_split_eq_endWord_iff (command : String) :
    (split command).1 = endWord ↔
      ∃ rest, (Text.trim command).toList = endWord.toList ++ rest ∧
        ∀ c ∈ rest.head?, isWordPart c = false := by
  have hall : endWord.toList.all isWordPart = true := by decide
  have hword : ∀ c ∈ endWord.toList, isWordPart c = true := List.all_eq_true.1 hall
  have hfirst {c : Char} {cs rest : List Char} (h : c :: cs = endWord.toList ++ rest) : c = 'E' :=
    (List.cons.inj h).1
  rw [split]
  split
  · next cs hcs =>
    -- A question mark asks for help, which is another word.
    constructor
    · intro h
      have hhelp : 'h' :: ("elp ".toList ++ cs).takeWhile isWordPart = endWord.toList :=
        String.toList_ofList.symm.trans (congrArg String.toList h)
      exact absurd (List.cons.inj hhelp).1 (by decide)
    · rintro ⟨rest, hrest, -⟩
      exact absurd (hfirst (hcs.symm.trans hrest)) (by decide)
  · next cs hcs =>
    constructor
    · intro h
      exact absurd h (by decide)
    · rintro ⟨rest, hrest, -⟩
      exact absurd (hfirst (hcs.symm.trans hrest)) (by decide)
  · rw [← takeWhile_isWordPart_iff hword, ← String.toList_inj, String.toList_ofList]

theorem endsInput_iff (line : String) : EndsInput line ↔ (ofLine line).command = endWord := by
  have hempty : "" ≠ endWord := by decide
  rw [EndsInput, ofLine]
  by_cases hend : Text.trim line = endWord
  · simp [hend]
  · rw [if_neg hend]
    cases (Text.trim line).toList with
    | nil => simp [hend, hempty]
    | cons c rest =>
      by_cases hc : c = mark
      · subst hc
        simp [hend, fst_split_eq_endWord_iff]
      · simp [hend, hc, hempty]

instance : DecidablePred EndsInput :=
  fun line => decidable_of_iff _ (endsInput_iff line).symm

end CommandLine

namespace Shell

open Turn
open NormalOrder.Action (stateLeft)
open CommandLine (EndsInput)
open Statement (groupText Unfinished)

/-- What is there of a statement that goes on, line by line, and the prompt for the next line. -/
structure Entry where
  lines : List String := []
  prompt : String := "λ> "

namespace Entry

/-- The line as part of a statement. A first line loses the blanks in front of it, and is none if it
is blank or a command. -/
def text? (e : Entry) (line : String) : Option String :=
  if EndsInput line then none
  else if e.lines ≠ [] then some line
  else if Text.trim line = "" ∨ (Text.trim line).toList.head? = some CommandLine.mark then none
  else some (Text.trimStart line)

/-- A statement is kept as long as it has more opening than closing parentheses. -/
def join (e : Entry) (text : String) : Entry :=
  if Unfinished (e.lines ++ [text]) then { lines := e.lines ++ [text], prompt := ". " } else {}

def next (e : Entry) : Input → Entry
  | .interrupt => {}
  | .line line => ((e.text? line).map e.join).getD e

end Entry

/-- The shell has kept the lines of the entry, and prompts like it. -/
structure Follows (s : Shell) (e : Entry) : Prop where
  waiting : s.waiting = (groupText e.lines, e.prompt)
  joinable : Statement.Pending e.lines

section Told

variable {s : Shell} {e : Entry} {line text : String}

theorem route_of_endsInput (h : EndsInput line) : s.route line = .ending := by
  rw [route, if_pos ((CommandLine.endsInput_iff line).1 h)]

theorem route_of_not_endsInput (hpending : s.pending ≠ "") (h : ¬EndsInput line) :
    s.route line = .statement line := by
  have hcommand : (CommandLine.ofLine line).command ≠ CommandLine.endWord :=
    mt (CommandLine.endsInput_iff line).2 h
  simp [route, hcommand, hpending]

theorem Follows.pending (h : s.Follows e) : s.pending = groupText e.lines :=
  congrArg Prod.fst h.waiting

theorem Follows.prompt (h : s.Follows e) : s.prompt = e.prompt :=
  congrArg Prod.snd h.waiting

theorem Follows.pending_eq_empty_iff (h : s.Follows e) : s.pending = "" ↔ e.lines = [] := by
  rw [h.pending]
  constructor
  · intro hempty
    exact h.joinable.resolve_right fun hjoinable => Statement.groupText_ne_empty hjoinable.1 hempty
  · intro hlines
    rw [hlines]
    rfl

/-- What the entry takes as part of a statement, the shell does too, and joins it in the same
way. -/
theorem Follows.route_of_text? (h : s.Follows e) (htext : e.text? line = some text) :
    ∃ text', s.route line = .statement text' ∧
      s.statementWith text' = groupText (e.lines ++ [text]) := by
  rw [Entry.text?] at htext
  split at htext
  · cases htext
  next hend =>
  split at htext
  · next hlines =>
    cases htext
    refine ⟨line, route_of_not_endsInput (mt h.pending_eq_empty_iff.1 hlines) hend, ?_⟩
    rw [statementWith, h.pending, Statement.tidy_joinLine h.joinable]
  next hlines =>
  split at htext
  · cases htext
  · next hfirst =>
    cases htext
    obtain ⟨hblank, hmark⟩ := not_or.1 hfirst
    have hpending : s.pending = "" := h.pending_eq_empty_iff.2 (not_not.1 hlines)
    refine ⟨Text.trim line, ?_, ?_⟩
    · rw [route_of_no_mark (fun hword => hend (.inl hword)) hmark]
      simp [hpending, hblank]
    · -- The blanks at the end would be dropped with the comment anyway.
      have htrim : Statement.tidy (Text.trim line) = Statement.tidy (Text.trimStart line) :=
        Statement.tidy_trimEnd (Text.trimStart line)
      have hjoin := Statement.tidy_joinLine h.joinable (Text.trimStart line)
      rw [← hjoin, ← h.pending, statementWith, hpending]
      exact htrim

theorem Follows.route_of_text?_eq_none (h : s.Follows e) (htext : e.text? line = none)
    (text : String) :
    s.route line ≠ .statement text := by
  rw [Entry.text?] at htext
  split at htext
  · next hend =>
    rw [route_of_endsInput hend]
    nofun
  next hend =>
  split at htext
  · cases htext
  next hlines =>
  split at htext
  · next hfirst =>
    have hpending : s.pending = "" := h.pending_eq_empty_iff.2 (not_not.1 hlines)
    have hcommand : (CommandLine.ofLine line).command ≠ CommandLine.endWord :=
      mt (CommandLine.endsInput_iff line).2 hend
    by_cases hblank : Text.trim line = ""
    · simp [route, hcommand, hpending, CommandLine.text_ofLine, hblank]
    · have hmark := hfirst.resolve_left hblank
      cases hfind : Command.find? (CommandLine.ofLine line).command <;>
        simp [route, hcommand, hpending, CommandLine.text_ofLine, hblank, hmark, hfind]
  · cases htext

end Told

section Inputs

variable {s : Shell} {e : Entry}

theorem follows_start (w : Workspace) : (Shell.start w).Follows {} :=
  ⟨rfl, .inl rfl⟩

/-- One line leads both to the same, whether it is part of a statement or not, and whether or not it
fails. -/
theorem Follows.line (h : s.Follows e) (line : String) :
    (s.afterLine line).Follows (e.next (.line line)) := by
  cases htext : e.text? line with
  | none =>
    have hwaiting := waiting_afterLine (h.route_of_text?_eq_none htext)
    rw [Entry.next, htext]
    exact ⟨hwaiting.trans h.waiting, h.joinable⟩
  | some text =>
    obtain ⟨text', hroute, hwith⟩ := h.route_of_text? htext
    have hwaiting := waiting_afterLine_of_statement hroute
    simp only [hwith, Statement.goesOn_groupText] at hwaiting
    rw [Entry.next, htext, Option.map_some, Option.getD_some, Entry.join]
    split
    · next hline =>
      rw [if_pos hline] at hwaiting
      exact ⟨hwaiting, h.joinable.append hline⟩
    · next hline =>
      rw [if_neg hline] at hwaiting
      exact ⟨hwaiting, .inl rfl⟩

theorem Follows.input (h : s.Follows e) (input : Input) :
    (s.afterInput input).Follows (e.next input) := by
  cases input with
  | line text => exact h.line text
  | interrupt => exact ⟨rfl, .inl rfl⟩

theorem Follows.inputs (h : s.Follows e) (inputs : List Input) :
    (inputs.foldl afterInput s).Follows (inputs.foldl Entry.next e) := by
  induction inputs generalizing s e with
  | nil => exact h
  | cons input inputs ih => exact ih (h.input input)

/-- What is kept has an open parenthesis, no comment, and no blanks at its end. -/
theorem Follows.pending_cases (h : s.Follows e) (hpending : s.pending ≠ "") :
    s.pending.toList.count ')' < s.pending.toList.count '(' ∧ ¬[';', ';'] <:+: s.pending.toList ∧
      ∀ c ∈ s.pending.toList.getLast?, Text.isBlank c = false := by
  obtain ⟨hunfinished, huncommented⟩ := h.joinable.resolve_left
    (mt h.pending_eq_empty_iff.2 hpending)
  have hgoes := (Statement.goesOn_groupText e.lines).2 hunfinished
  obtain ⟨text, htext⟩ := Statement.exists_trimEnd_groupText e.lines
  rw [h.pending]
  refine ⟨of_decide_eq_true hgoes, huncommented.not_isInfix, ?_⟩
  rw [htext]
  exact fun c hc => Text.not_isBlank_of_getLast?_trimEnd hc

def answersTo (s : Shell) : List Input → List String
  | [] => []
  | .line text :: rest => s.answers text ++ (s.afterInput (.line text)).answersTo rest
  | .interrupt :: rest => (s.afterInput .interrupt).answersTo rest

/-- No result is left from one input to the next, so each of them adds its own answers. -/
theorem answered_afterInputs (hresults : s.workspace.session.results = []) (inputs : List Input) :
    s.workspace.Answered (s.answersTo inputs) (inputs.foldl afterInput s).workspace := by
  induction inputs generalizing s with
  | nil => exact .of_spares (.refl s.workspace) hresults
  | cons input inputs ih =>
    rw [List.foldl_cons]
    cases input with
    | line text =>
      have hline := answered_afterLine hresults text
      rw [answersTo, afterInput_line]
      exact hline.trans (ih hline.results)
    | interrupt =>
      have hinterrupt : s.workspace.Answered [] (s.afterInput .interrupt).workspace := by
        rw [afterInput_interrupt]
        exact .of_spares (.push s.workspace _) hresults
      rw [answersTo]
      exact hinterrupt.trans (ih hinterrupt.results)

end Inputs

section Dispatched

variable {s : Shell}

theorem Coupled.prompt_eq_iff (h : s.Coupled) : s.prompt = ". " ↔ s.pending ≠ "" := by
  rw [h]
  by_cases hpending : s.pending = ""
  · simp [hpending, primaryPrompt]
  · simp [hpending, secondaryPrompt]

theorem dispatch_of_pending (hpending : s.pending ≠ "") (line : String) :
    dispatch line s =
      if EndsInput line then (do printLine ""; return true : Turn Bool) s
      else (do runStatement line; return false : Turn Bool) s := by
  rw [dispatch_eq]
  split
  · next hend =>
    rw [route_of_endsInput hend]
    rfl
  · next hend =>
    rw [route_of_not_endsInput hpending hend]
    rfl

end Dispatched

/-- Lines and interrupts in a shell on a session in which no result waits keep the following. The
prompt is that of the entry, and tells whether a statement goes on. What is pending is made of the
lines typed in for it since the last statement was complete or given up; it has an open parenthesis,
no comment, and no blanks at its end, and every line but the end of the input is taken as part of
it. All answers have been printed. -/
theorem unfinished_statement_is_kept (w : Workspace) (hresults : w.session.results = [])
    (inputs : List Input) :
    let s := inputs.foldl afterInput (Shell.start w)
    let e := inputs.foldl Entry.next {}
    s.prompt = e.prompt ∧ (s.prompt = ". " ↔ s.pending ≠ "") ∧ s.pending = groupText e.lines ∧
      (s.pending ≠ "" →
        (s.pending.toList.count ')' < s.pending.toList.count '(' ∧
          ¬[';', ';'] <:+: s.pending.toList ∧
          ∀ c ∈ s.pending.toList.getLast?, Text.isBlank c = false) ∧
        ∀ line, dispatch line s =
          if EndsInput line then (do printLine ""; return true : Turn Bool) s
          else (do runStatement line; return false : Turn Bool) s) ∧
      s.workspace.session.results = [] ∧
      ∃ more, s.workspace.printed = w.printed ++ more ∧
        (((Shell.start w).answersTo inputs).map (· ++ "\n")).Sublist more := by
  intro s e
  have hfollows : s.Follows e := (follows_start w).inputs inputs
  have hcoupled : s.Coupled := ((Reached.start w).inputs inputs).coupled
  have hanswered : (Shell.start w).workspace.Answered ((Shell.start w).answersTo inputs)
      s.workspace :=
    answered_afterInputs hresults inputs
  refine ⟨hfollows.prompt, hcoupled.prompt_eq_iff, hfollows.pending, ?_, hanswered.results,
    hanswered.printed⟩
  intro hpending
  exact ⟨hfollows.pending_cases hpending, dispatch_of_pending hpending⟩

/-- A statement is given up, another one fails, a third one has an answer, and the last one goes on
with what looks like a command. -/
theorem unfinished_statement_is_kept_after_interrupt :
    let w : Workspace := { session := Session.start "<in>" {} false, patience := 10 }
    let inputs : List Input :=
      [.line "id = \\x. x", .line "(y", .interrupt, .line "id )", .line "id y", .line " \t(id ;; )",
        .line " : EOF", .line " :names"]
    let s := inputs.foldl afterInput (Shell.start w)
    w.session.results = [] ∧ s.pending = "(id  :names" ∧ s.prompt = ". " ∧
      s.workspace.session.results = [] ∧ "y\n" ∈ s.workspace.printed ∧
      dispatch ":EOFx" s = (do runStatement ":EOFx"; return false : Turn Bool) s := by
  intro w inputs s
  obtain ⟨hlines, hprompt, hanswers, hends⟩ :
      (inputs.foldl Entry.next {}).lines = ["(id ;; )", " :names"] ∧
      (inputs.foldl Entry.next {}).prompt = ". " ∧
      (Shell.start w).answersTo inputs = ["y"] ∧ ¬EndsInput ":EOFx" := by
    decide +kernel
  have htext : groupText ["(id ;; )", " :names"] = "(id  :names" := by decide +kernel
  have hresults : w.session.results = [] := rfl
  obtain ⟨hshown, -, hpending, hkept, hnone, more, hmore, hsublist⟩ :=
    unfinished_statement_is_kept w hresults inputs
  have hs : inputs.foldl afterInput (Shell.start w) = s := rfl
  rw [hs] at hshown hpending hkept hnone hmore
  -- What follows should not run the inputs again.
  clear_value s
  rw [hlines, htext] at hpending
  rw [hanswers] at hsublist
  have hne : s.pending ≠ "" := by
    rw [hpending]
    decide
  refine ⟨hresults, hpending, hshown.trans hprompt, hnone, ?_, ?_⟩
  · rw [hmore]
    exact List.mem_append_right _ (hsublist.subset List.mem_cons_self)
  · exact ((hkept hne).2 ":EOFx").trans (if_neg hends)

end Shell

end NormalOrder
