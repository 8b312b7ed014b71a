import Mathlib.Data.List.TakeWhile
import NormalOrder.Proofs.Decoding
import NormalOrder.Proofs.Recovery
import NormalOrder.Proofs.Roster
import NormalOrder.Proofs.Standing

/-!
# The lines that the shell is not prepared for

A mistake is reported, and the shell goes on with the next line. There are failures that it is not
prepared for, which end it: a limit given in digits that are no number, a path with a null character
in it, a file to load that is not text, and a term to evaluate under a limit without a value. All
other lines return, unless a reduction without a limit outlasts the patience.
-/

namespace NormalOrder

/-- The texts that are read as numbers. -/
theorem Text.exists_readNumeral_iff {s : String} :
    (∃ n, readNumeral s = .ok n) ↔
      (∀ c ∈ s.toList, isDecimal c = true) ∧ s.length ≤ maxDigits := by
  have hfront := List.takeWhile_prefix isDecimal (l := s.toList)
  have hlength : (s.toList.takeWhile isDecimal).length ≤ s.length := by
    rw [← String.length_toList]
    exact hfront.length_le
  have hall : (s.toList.takeWhile isDecimal).length = s.length ↔
      ∀ c ∈ s.toList, isDecimal c = true := by
    rw [← List.takeWhile_eq_self_iff, ← String.length_toList]
    constructor
    · intro h
      exact hfront.eq_of_length h
    · intro h
      rw [h]
  rw [← hall]
  simp only [readNumeral]
  split
  · constructor
    · rintro ⟨n, ⟨⟩⟩
    · omega
  · split
    · constructor
      · rintro ⟨n, ⟨⟩⟩
      · omega
    · constructor
      · omega
      · exact fun _ => ⟨_, rfl⟩

namespace Session

open NormalOrder.Action Statement

/-- Running the statements comes to a term, behind nothing but blank lines and bindings. -/
inductive ComesToTerm : List String → Prop
  | term {line : String} {rest : List String} {t : Term} (hblank : Text.isBlankText line = false)
    (h : parse line = .ok (.bare t)) : ComesToTerm (line :: rest)
  | blank {line : String} {rest : List String} (h : Text.isBlankText line = true)
    (hrest : ComesToTerm rest) : ComesToTerm (line :: rest)
  | binding {line : String} {rest : List String} {name : String} {t : Term}
    (h : parse line = .ok (.bind name t)) (hrest : ComesToTerm rest) : ComesToTerm (line :: rest)

theorem ComesToTerm.of_singleton {line : String} (h : ComesToTerm [line]) :
    Text.isBlankText line = false ∧ ∃ t, parse line = .ok (.bare t) := by
  cases h with
  | term hblank hparse => exact ⟨hblank, _, hparse⟩
  | blank hblank hrest => cases hrest
  | binding hparse hrest => cases hrest

section Run

variable {w w' : Workspace} (path : String)

theorem perform_of_add {s : Numbered} (h : add s.text s.number path w = .ok () w') :
    ∃ w₁, perform path s w = .ok () w₁ :=
  ⟨_, (bind_of_ok h).trans (flush_apply w')⟩

theorem perform_of_blank_limit {s : Numbered} {t : Term} (hlimit : w.session.limit = .blank)
    (hblank : Text.isBlankText s.text = false) (h : parse s.text = .ok (.bare t)) :
    ∃ w₁, perform path s w = .error (.breakdown .blankLimit) w₁ := by
  have hregistered : (w.register path (some ⟨s.text, s.number⟩)).session.limit = .blank := hlimit
  have hadd : add s.text s.number path w =
      .error (.breakdown .blankLimit) (w.register path (some ⟨s.text, s.number⟩)) := by
    rw [add_apply hblank, h]
    exact bind_of_error (bind_of_error (evaluate_of_blank hregistered t))
  exact ⟨_, bind_of_error hadd⟩

/-- Under a blank limit, running the statements ends at the term that they come to. -/
theorem forM_perform_of_comesToTerm {statements : List Numbered} (hlimit : w.session.limit = .blank)
    (h : ComesToTerm (statements.map Numbered.text)) :
    ∃ w₁, statements.forM (perform path) w = .error (.breakdown .blankLimit) w₁ := by
  induction statements generalizing w with
  | nil => cases h
  | cons s statements ih =>
    have hskip {w₁ : Workspace} (hs : perform path s w = .ok () w₁)
        (hrest : ComesToTerm (statements.map Numbered.text)) :
        ∃ w₁, (s :: statements).forM (perform path) w = .error (.breakdown .blankLimit) w₁ := by
      have hkept := congrArg Standing.limit ((keeps_standing_perform path s).of_ok hs)
      obtain ⟨w₂, h₂⟩ := ih (hkept.trans hlimit) hrest
      exact ⟨w₂, (bind_of_ok hs).trans h₂⟩
    cases h with
    | term hblank hparse =>
      obtain ⟨w₁, h₁⟩ := perform_of_blank_limit path hlimit hblank hparse
      exact ⟨w₁, bind_of_error h₁⟩
    | blank hblank hrest =>
      obtain ⟨w₁, h₁⟩ := perform_of_add path (add_of_blank s.number path hblank w)
      exact hskip h₁ hrest
    | binding hparse hrest =>
      cases hblank : Text.isBlankText s.text with
      | true =>
        obtain ⟨w₁, h₁⟩ := perform_of_add path (add_of_blank s.number path hblank w)
        exact hskip h₁ hrest
      | false =>
        obtain ⟨w₁, hadd, -⟩ := add_of_bind s.number path hblank hparse w
        obtain ⟨w₂, h₂⟩ := perform_of_add path hadd
        exact hskip h₂ hrest

/-- Statements that run under a blank limit are blank lines and bindings. -/
theorem comesToTerm_append {front : List Numbered} {rest : List String}
    (hlimit : w.session.limit = .blank) (h : front.forM (perform path) w = .ok () w')
    (hrest : ComesToTerm rest) : ComesToTerm (front.map Numbered.text ++ rest) := by
  induction front generalizing w with
  | nil => exact hrest
  | cons s front ih =>
    obtain ⟨_, w₁, hs, hfront⟩ := bind_eq_ok h
    have hkept := congrArg Standing.limit ((keeps_standing_perform path s).of_ok hs)
    have htail := ih (hkept.trans hlimit) hfront
    rcases parse_of_perform hs with hblank | ⟨statement, hparse⟩
    · exact .blank hblank htail
    · cases statement with
      | bind name t => exact .binding hparse htail
      | bare t =>
        cases hblank : Text.isBlankText s.text with
        | true => exact .blank hblank htail
        | false =>
          obtain ⟨w₂, h₂⟩ := perform_of_blank_limit path hlimit hblank hparse
          cases h₂.symm.trans hs

theorem runText_of_comesToTerm {text : String} (hlimit : w.session.limit = .blank)
    (h : ComesToTerm ((statements (Text.lines text)).map Numbered.text)) :
    ∃ w₁, runText path text w = .error (.breakdown .blankLimit) w₁ := by
  obtain ⟨w₁, h₁⟩ := forM_perform_of_comesToTerm path hlimit h
  rw [runText, bind_of_ok (session_eq_ok w)]
  exact ⟨w₁, bind_of_error h₁⟩

end Run

end Session

/-- There is no limit, and a reduction of the line that is registered outlasts the patience. -/
def Workspace.Outlasted (w : Workspace) : Prop :=
  w.session.limit = .unlimited ∧ ∃ path entry t,
    (path, some entry) ∈ w.session.reporter.traceback.entries ∧
      Statement.parse entry.line = .ok (.bare t) ∧
      Reduction.run w.session.environment .unbounded w.patience t = none

namespace Session

open NormalOrder.Action Statement

variable {w w' : Workspace} {path : String} {f : Failure}

/-- A statement fails with a report, or patience is at its end, or the limit has no value. -/
theorem add_eq_error_cases {line : String} {number : Int}
    (h : add line number path w = .error f w') :
    (∃ d, f = .reported d) ∨ (f = .stalled ∧ w'.Outlasted) ∨
      (f = .breakdown .blankLimit ∧ w.session.limit = .blank ∧
        ∀ rest, ComesToTerm (line :: rest)) := by
  obtain ⟨hblank, hfails, hw'⟩ := add_eq_error h
  cases hfails with
  | unread hparse => exact .inl ⟨_, rfl⟩
  | unevaluated hparse ht =>
    cases ht with
    | blank hlimit => exact .inr (.inr ⟨rfl, hlimit, fun _ => .term hblank hparse⟩)
    | outlasted hlimit hrun =>
      refine .inr (.inl ⟨rfl, ?_⟩)
      rw [hw']
      exact ⟨hlimit, path, _, _, Roster.mem_entries_insert_self, hparse, hrun⟩

/-- A file fails to load with a report, or patience is at its end, or no file can have the path, or
the file is not text, or it comes to a term under a limit without a value. -/
theorem load_eq_error_cases (h : load path w = .error f w') :
    (∃ d, f = .reported d) ∨ (f = .stalled ∧ w'.Outlasted) ∨
      (f = .breakdown .nullCharacter ∧ Files.hasNull path = true) ∨
      ∃ bytes, w.files.read path = .ok bytes ∧
        ((∃ fault, f = .breakdown (.undecodable fault)) ∧ (∀ text, bytes ≠ Text.Utf8.encode text) ∨
          f = .breakdown .blankLimit ∧ w.session.limit = .blank ∧
            ∃ text, bytes = Text.Utf8.encode text ∧
            ComesToTerm ((statements (Text.lines text)).map Numbered.text)) := by
  rw [load_apply] at h
  cases hread : w.files.read path with
  | error fault =>
    rw [hread] at h
    cases h
    cases fault with
    | unavailable => exact .inl ⟨_, rfl⟩
    | nullCharacter =>
      exact .inr (.inr (.inl ⟨rfl, Files.read_eq_nullCharacter_iff.1 hread⟩))
  | ok bytes =>
    rw [hread] at h
    dsimp only at h
    cases hdecode : Text.Utf8.decode bytes with
    | error fault =>
      rw [hdecode] at h
      cases h
      refine .inr (.inr (.inr ⟨bytes, rfl, .inl ⟨⟨fault, rfl⟩, ?_⟩⟩))
      rintro text rfl
      rw [Text.Utf8.decode_encode] at hdecode
      cases hdecode
    | ok text =>
      rw [hdecode] at h
      obtain ⟨front, s, rest, w₁, hsplit, hfront, hadd⟩ := runText_eq_error h
      rcases add_eq_error_cases hadd with hreported | hstalled | ⟨hf, hblank, hterm⟩
      · exact .inl hreported
      · exact .inr (.inl hstalled)
      · have hkept : w₁.session.limit = w.session.limit :=
          congrArg Standing.limit ((Keeps.forM (keeps_standing_perform path) front).of_ok hfront)
        have hlimit : (w.register path none).session.limit = .blank := hkept.symm.trans hblank
        have hbytes := Text.Utf8.decode_eq_ok_iff.1 hdecode
        refine .inr (.inr (.inr ⟨bytes, rfl, .inr ⟨hf, hlimit, text, hbytes, ?_⟩⟩))
        rw [hsplit, List.map_append]
        exact comesToTerm_append path hlimit hfront (hterm _)

end Session

namespace Shell

open Turn
open NormalOrder.Action (bind_of_ok bind_of_error failure? exists_error)
open Session (ComesToTerm)

/-- The lines that the shell is not prepared for. -/
inductive Unprepared (s : Shell) (line : String) : Prop
  /-- A limit in digits of which not all are decimal, or in too many of them. -/
  | numeral {argument : String} (hroute : s.route line = .command .limit argument)
    (hnumeric : Text.isNumeric argument = true)
    (h : (∃ c ∈ argument.toList, Text.isDecimal c = false) ∨ Text.maxDigits < argument.length)
  /-- A file to load or to save at a path with a null character. -/
  | path {c : Command} {path : String} (hroute : s.route line = .command c path)
    (hc : c = .load ∨ c = .save) (h : Files.hasNull path = true)
  /-- A file that is not text. -/
  | bytes {path : String} {bytes : List UInt8} (hroute : s.route line = .command .load path)
    (hread : s.workspace.files.read path = .ok bytes) (h : ∀ text, bytes ≠ Text.Utf8.encode text)
  /-- A file that comes to a term, under a limit without a value. -/
  | program {path text : String} (hroute : s.route line = .command .load path)
    (hread : s.workspace.files.read path = .ok (Text.Utf8.encode text))
    (hlimit : s.workspace.session.limit = .blank)
    (h : ComesToTerm ((Statement.statements (Text.lines text)).map Statement.Numbered.text))
  /-- A statement that is a term, under a limit without a value. -/
  | statement {text : String} (hroute : s.route line = .statement text)
    (hcomplete : Statement.goesOn (s.statementWith text) = false)
    (hlimit : s.workspace.session.limit = .blank) (h : ComesToTerm [s.statementWith text])

variable {line : String} {s s' : Shell} {f : Failure}

theorem unprepared_of_overlooks {c : Command} {argument : String}
    (hroute : s.route line = .command c argument) (h : Overlooks c argument f) :
    Unprepared s line := by
  cases h with
  | path hnull => exact .path hroute (.inr rfl) hnull
  | numeral hnumeric hread =>
    refine .numeral hroute hnumeric ?_
    by_contra hgood
    have hdecimal : (∀ c ∈ argument.toList, Text.isDecimal c = true) ∧
        argument.length ≤ Text.maxDigits := by
      simpa using hgood
    obtain ⟨n, hn⟩ := Text.exists_readNumeral_iff.2 hdecimal
    rw [hread] at hn
    cases hn

/-- A line fails with a report, or patience is at its end, or the shell is not prepared for it. -/
theorem lineFails_cases (h : LineFails s line f s') :
    (∃ d, f = .reported d) ∨ (f = .stalled ∧ s'.workspace.Outlasted) ∨ Unprepared s line := by
  cases h with
  | statement hroute hcomplete hadd hs' =>
    rcases Session.add_eq_error_cases hadd with hreported | hstalled | ⟨-, hlimit, hterm⟩
    · exact .inl hreported
    · exact .inr (.inl hstalled)
    · exact .inr (.inr (.statement hroute hcomplete hlimit (hterm [])))
  | invalid hroute hs' hf => exact .inl hf
  | command hroute hs' hf =>
    rcases hf with hreported | hoverlooks
    · exact .inl hreported
    · exact .inr (.inr (unprepared_of_overlooks hroute hoverlooks))
  | load hroute hpath hload hs' =>
    rcases Session.load_eq_error_cases hload with
      hreported | hstalled | ⟨-, hnull⟩ | ⟨bytes, hread, hbytes⟩
    · exact .inl hreported
    · exact .inr (.inl hstalled)
    · exact .inr (.inr (.path hroute (.inl rfl) hnull))
    · rcases hbytes with ⟨-, hnone⟩ | ⟨-, hlimit, text, rfl, hterm⟩
      · exact .inr (.inr (.bytes hroute hread hnone))
      · exact .inr (.inr (.program hroute hread hlimit hterm))

section Breakdown

/-- A command is noted in the log before it runs. -/
theorem dispatch_of_command {c : Command} {argument : String}
    (h : s.route line = .command c argument) :
    ∃ events, dispatch line s = runCommand c argument { s with workspace.events := events } := by
  rw [dispatch_eq, h]
  exact ⟨_, rfl⟩

theorem dispatch_of_load {path : String} (hroute : s.route line = .command .load path)
    (hpath : path ≠ "")
    (hload : ∀ events, ∃ w, Session.load path { s.workspace with events } = .error f w) :
    ∃ s', dispatch line s = .error f s' := by
  obtain ⟨events, hdispatch⟩ := dispatch_of_command hroute
  obtain ⟨w, hw⟩ := hload events
  have hturn : load path { s with workspace.events := events } =
      .error f { s with workspace := w } := by
    rw [load, if_neg (by simpa using hpath)]
    exact ofAction_of_error hw
  rw [hdispatch]
  exact ⟨_, bind_of_error hturn⟩

theorem ne_empty_of_read {files : Files} {path : String} {bytes : List UInt8}
    (h : files.read path = .ok bytes) : path ≠ "" := by
  rintro rfl
  cases h

theorem ne_empty_of_hasNull {path : String} (h : Files.hasNull path = true) : path ≠ "" := by
  rintro rfl
  cases h

theorem load_of_hasNull {path : String} (h : Files.hasNull path = true) (w : Workspace) :
    ∃ w', Session.load path w = .error (.breakdown .nullCharacter) w' := by
  rw [Session.load_apply, Files.read_eq_nullCharacter_iff.2 h]
  exact ⟨_, rfl⟩

theorem save_of_hasNull {path : String} (h : Files.hasNull path = true) (s : Shell) :
    save path s = .error (.breakdown .nullCharacter) s := by
  have hsave : Session.save path s.workspace =
      .error (.breakdown .nullCharacter) s.workspace := by
    rw [Session.save_apply, Files.write_eq_nullCharacter_iff.2 h]
    rfl
  rw [save, if_neg (by simpa using ne_empty_of_hasNull h)]
  exact bind_of_error (ofAction_of_error hsave)

theorem limit_of_bad_numeral {argument : String} (hnumeric : Text.isNumeric argument = true)
    (hbad : (∃ c ∈ argument.toList, Text.isDecimal c = false) ∨ Text.maxDigits < argument.length)
    (s : Shell) : ∃ fault, limit argument s = .error (.breakdown (.numeral fault)) s := by
  have hempty : ¬argument.isEmpty = true := by
    rintro hempty
    simp [Text.isNumeric, hempty] at hnumeric
  cases hread : Text.readNumeral argument with
  | ok n =>
    obtain ⟨hall, hlength⟩ := Text.exists_readNumeral_iff.1 ⟨n, hread⟩
    rcases hbad with ⟨c, hc, hdecimal⟩ | hlong
    · rw [hall c hc] at hdecimal
      cases hdecimal
    · omega
  | error fault =>
    refine ⟨fault, ?_⟩
    rw [limit_eq, if_neg hempty, if_pos hnumeric, hread]
    rfl

/-- A line that the shell is not prepared for breaks down. -/
theorem dispatch_of_unprepared (h : Unprepared s line) :
    ∃ cause s', dispatch line s = .error (.breakdown cause) s' := by
  cases h with
  | numeral hroute hnumeric hbad =>
    obtain ⟨events, hdispatch⟩ := dispatch_of_command hroute
    obtain ⟨fault, hlimit⟩ := limit_of_bad_numeral hnumeric hbad
      { s with workspace.events := events }
    rw [hdispatch]
    exact ⟨_, _, bind_of_error hlimit⟩
  | @path c path hroute hc hnull =>
    rcases hc with rfl | rfl
    · exact ⟨_, dispatch_of_load hroute (ne_empty_of_hasNull hnull) fun _ =>
        load_of_hasNull hnull _⟩
    · obtain ⟨events, hdispatch⟩ := dispatch_of_command hroute
      rw [hdispatch]
      exact ⟨_, _, bind_of_error (save_of_hasNull hnull { s with workspace.events := events })⟩
  | @bytes path bytes hroute hread hnone =>
    cases hdecode : Text.Utf8.decode bytes with
    | ok text => exact absurd (Text.Utf8.decode_eq_ok_iff.1 hdecode) (hnone text)
    | error fault =>
      have hload : ∀ events, ∃ w, Session.load path { s.workspace with events } =
          .error (.breakdown (.undecodable fault)) w := by
        intro events
        rw [Session.load_apply]
        simp only [hread, hdecode]
        exact ⟨_, rfl⟩
      exact ⟨_, dispatch_of_load hroute (ne_empty_of_read hread) hload⟩
  | @program path text hroute hread hlimit hterm =>
    have hload : ∀ events, ∃ w, Session.load path { s.workspace with events } =
        .error (.breakdown .blankLimit) w := by
      intro events
      rw [Session.load_apply]
      simp only [hread, Text.Utf8.decode_encode]
      exact Session.runText_of_comesToTerm path hlimit hterm
    exact ⟨_, dispatch_of_load hroute (ne_empty_of_read hread) hload⟩
  | @statement text hroute hcomplete hlimit hterm =>
    obtain ⟨hblank, t, hparse⟩ := hterm.of_singleton
    obtain ⟨w, hperform⟩ : ∃ w, s.complete (s.statementWith text) s.workspace =
        .error (.breakdown .blankLimit) w :=
      Session.perform_of_blank_limit _ hlimit hblank hparse
    have hrun : runStatement text s = .error (.breakdown .blankLimit)
        { s.completed with workspace := w } := by
      rw [runStatement_of_not_goesOn hcomplete]
      exact ofAction_of_error hperform
    rw [dispatch_eq, hroute]
    exact ⟨_, _, bind_of_error hrun⟩

end Breakdown

variable (hfatal : s.fatal = false)

include hfatal

theorem runLine_of_reported {d : Diagnostic} (h : dispatch line s = .error (.reported d) s') :
    ∃ s₁, runLine line s = .ok false s₁ ∧ s₁.fatal = false := by
  have hkept : s'.fatal = false := ((keeps_fatal_dispatch line).of_error h).trans hfatal
  rw [runLine_of_error h, Workspace.raised_report hkept]
  exact ⟨_, rfl, (Workspace.fatal_report s'.workspace _).trans hkept⟩

theorem runLine_of_persists (h : dispatch line s = .error f s') (hf : f.persists = true) :
    runLine line s = .error f { s' with workspace := (s'.workspace.report f).1 } := by
  have hkept : s'.fatal = false := ((keeps_fatal_dispatch line).of_error h).trans hfatal
  rw [runLine_of_error h, Workspace.raised_report hkept, if_pos hf]

omit hfatal

/-- In a shell in which failures are not fatal, a line returns unless a reduction without a limit
outlasts the patience, and then failures are not fatal in the next line either. The exceptions are
the lines that the shell is not prepared for: there the failure goes on. -/
theorem line_returns_if_prepared (s : Shell) (line : String) (hfatal : s.fatal = false) :
    (¬s.Unprepared line →
      (∃ stop s', runLine line s = .ok stop s' ∧ s'.fatal = false) ∨
        ∃ s', runLine line s = .error .stalled s' ∧ s'.workspace.Outlasted) ∧
    (s.Unprepared line → ∃ cause s', runLine line s = .error (.breakdown cause) s') := by
  constructor
  · intro hprepared
    cases hdispatch : dispatch line s with
    | ok stop s₁ =>
      have hkept : s₁.fatal = false := ((keeps_fatal_dispatch line).of_ok hdispatch).trans hfatal
      exact .inl ⟨stop, s₁, runLine_of_ok hdispatch, hkept⟩
    | error f s₁ =>
      rcases lineFails_cases (lineFails_of_dispatch hdispatch) with
        ⟨d, rfl⟩ | ⟨rfl, hstalled⟩ | hnot
      · obtain ⟨s', hrun, hkept⟩ := runLine_of_reported hfatal hdispatch
        exact .inl ⟨false, s', hrun, hkept⟩
      · exact .inr ⟨_, runLine_of_persists hfatal hdispatch rfl, hstalled⟩
      · exact absurd hnot hprepared
  · intro hunprepared
    obtain ⟨cause, s₁, hdispatch⟩ := dispatch_of_unprepared hunprepared
    exact ⟨cause, _, runLine_of_persists hfatal hdispatch rfl⟩

/-- Decimal digits of another script are read as a limit. -/
theorem line_returns_if_prepared_other_digits :
    let s := Shell.start { session := Session.start "<in>" {} false, patience := 10 }
    (s.fatal = false ∧ ¬s.Unprepared ":limit ٣٤") ∧
      ((∃ stop s', runLine ":limit ٣٤" s = .ok stop s' ∧ s'.fatal = false) ∨
        ∃ s', runLine ":limit ٣٤" s = .error .stalled s' ∧ s'.workspace.Outlasted) := by
  intro s
  have hline : s.route ":limit ٣٤" = .command .limit "٣٤" := by decide +kernel
  have hprepared : ¬s.Unprepared ":limit ٣٤" := by
    rintro (⟨hroute, -, hbad⟩ | ⟨hroute, hc, -⟩ | ⟨hroute, -, -⟩ | ⟨hroute, -, -, -⟩ |
      ⟨hroute, -, -, -⟩)
    · cases hline.symm.trans hroute
      have hdecimal : "٣٤".toList.all Text.isDecimal = true := by decide +kernel
      have hlength : "٣٤".length ≤ Text.maxDigits := by decide +kernel
      rcases hbad with ⟨c, hc, hother⟩ | hlong
      · rw [List.all_eq_true.1 hdecimal c hc] at hother
        cases hother
      · omega
    · cases hline.symm.trans hroute
      rcases hc with hc | hc <;> cases hc
    · cases hline.symm.trans hroute
    · cases hline.symm.trans hroute
    · cases hline.symm.trans hroute
  exact ⟨⟨rfl, hprepared⟩, (line_returns_if_prepared s ":limit ٣٤" rfl).1 hprepared⟩

/-- A superscript is a digit, but no number can be read from it, and this is not reported as a
mistake. -/
theorem superscript_limit_breaks_down :
    let s := Shell.start { session := Session.start "<in>" {} false, patience := 10 }
    s.fatal = false ∧
      ∃ s', runLine ":limit ²" s = .error (.breakdown (.numeral (.notDecimal "²"))) s' := by
  intro s
  have hfailure : failure? (runLine ":limit ²" s) =
      some (.breakdown (.numeral (.notDecimal "²"))) := by decide +kernel
  exact ⟨rfl, exists_error hfailure⟩

end Shell

end NormalOrder
