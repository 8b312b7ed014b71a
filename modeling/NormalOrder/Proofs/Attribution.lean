import NormalOrder.Proofs.Locations
import NormalOrder.Proofs.Warnings

/-!
# Reports name the statement that they are about

Of all that a session can be asked to do, only running statements registers lines, one at a time,
and every line is forgotten when its statement has ended or its failure has been reported. So
between the calls no line is registered, and a report starts with the place of a statement exactly
if it is about one.
-/

namespace NormalOrder

open NormalOrder.Action

structure Workspace.AllClear (w : Workspace) : Prop where
  fatal : w.session.reporter.fatal = false
  clear : Traceback.Clear w.session.reporter.traceback

theorem Workspace.AllClear.congr {w w' : Workspace} (h : w.AllClear)
    (hreporter : w'.session.reporter = w.session.reporter) : w'.AllClear := by
  obtain ⟨hfatal, hclear⟩ := h
  rw [← hreporter] at hfatal hclear
  exact ⟨hfatal, hclear⟩

/-- The workspace after an action whose failure, if it has one, has been reported. -/
def Action.settled {α : Type} (x : Action α) (w : Workspace) : Workspace :=
  stateLeft (guarded x w)

section Settled

variable {α : Type} {x : Action α} {w w₁ : Workspace}

theorem settled_of_ok {a : α} (h : x w = .ok a w₁) : settled x w = w₁ := by
  rw [settled, guarded, h]
  rfl

theorem settled_of_error {f : Failure} (h : x w = .error f w₁) : settled x w = (w₁.report f).1 := by
  simp only [settled, guarded, h]
  rcases w₁.report f with ⟨w₂, - | f'⟩ <;> rfl

theorem settled_congr {y : Action α} (h : x w = y w₁) : settled x w = settled y w₁ := by
  rw [settled, settled, guarded, guarded, h]

end Settled

/-- A report with the statement that it is about, if it is about one. -/
abbrev Attributed := Option (String × Int) × Text.Styled

def Workspace.reportedSince (w w' : Workspace) (origin : Option (String × Int)) : List Attributed :=
  (w'.reports.drop w.reports.length).map (origin, ·)

/-- The failure is told, after the place of the statement that the report is about. -/
def Attributed.Tells (r : Attributed) (f : Failure) : Prop :=
  ∃ d, f.diagnostic? = some d ∧ r.2 = Traceback.place r.1 ++ Traceback.error Roster.empty d

/-- These reports have been added, each names what it is about, the last one tells the failure, if
there was one, and all is clear again. -/
structure Explains (f? : Option Failure) (attributed : List Attributed) (w w' : Workspace) :
    Prop where
  allClear : w'.AllClear
  reports : w'.reports = w.reports ++ attributed.map Prod.snd
  names : ∀ r ∈ attributed, Report.Names r.1 r.2
  told : ∀ f, f? = some f → ∃ r, attributed.getLast? = some r ∧ r.Tells f

theorem reportedSince_eq {w w' : Workspace} {added : List Text.Styled}
    (h : w'.reports = w.reports ++ added) (origin : Option (String × Int)) :
    w.reportedSince w' origin = added.map (origin, ·) := by
  rw [Workspace.reportedSince, h, List.drop_left]

theorem exists_diagnostic {f : Failure} (hstalled : f ≠ .stalled) (hexit : ∀ code, f ≠ .exit code) :
    ∃ d, f.diagnostic? = some d := by
  cases f with
  | stalled => exact absurd rfl hstalled
  | exit code => exact absurd rfl (hexit code)
  | _ => exact ⟨_, rfl⟩

/-- A failure that is told is reported with what the registered lines put in front, and then they
are forgotten. -/
theorem report_of_diagnostic {w : Workspace} {f : Failure} {d : Diagnostic}
    (hfatal : w.session.reporter.fatal = false) (hd : f.diagnostic? = some d) :
    (w.report f).1 = { w with
      session.reporter.traceback := w.session.reporter.traceback.clearLines
      events := w.events.push (.reported (w.session.reporter.traceback.error d)) } := by
  simp only [Workspace.report, Reporter.handle, hd, Reporter.throw, hfatal]
  rfl

namespace Explains

variable {w w₁ w₂ : Workspace} {f : Failure} {f? : Option Failure} {origin : Option (String × Int)}

/-- Where nothing has been reported and no line been registered. -/
theorem nil (hclear : w₁.AllClear) (h : w₁.reports = w.reports) : Explains none [] w w₁ :=
  ⟨hclear, by simp [h], by simp, by rintro f ⟨⟩⟩

theorem trans {first rest : List Attributed} (h : Explains none first w w₁)
    (h' : Explains f? rest w₁ w₂) : Explains f? (first ++ rest) w w₂ := by
  refine ⟨h'.allClear, ?_, List.forall_mem_append.2 ⟨h.names, h'.names⟩, ?_⟩
  · rw [h'.reports, h.reports, List.map_append, List.append_assoc]
  · intro f hf
    obtain ⟨r, hlast, htells⟩ := h'.told f hf
    exact ⟨r, by rw [List.getLast?_append, hlast, Option.some_or], htells⟩

theorem of_adds (hclear : w₁.AllClear) (h : Session.Adds (Report.Names origin) w w₁) :
    Explains none (w.reportedSince w₁ origin) w w₁ := by
  obtain ⟨added, hreports, hadded⟩ := h
  rw [reportedSince_eq hreports]
  refine ⟨hclear, ?_, List.forall_mem_map.2 hadded, by rintro f ⟨⟩⟩
  simpa using hreports

/-- The failure of what has reported only warnings so far is told after them. -/
theorem of_report (hadds : Session.Adds (Report.Names origin) w w₁)
    (hfatal : w₁.session.reporter.fatal = false)
    (hpoints : Traceback.PointsTo w₁.session.reporter.traceback origin) (hstalled : f ≠ .stalled)
    (hexit : ∀ code, f ≠ .exit code) :
    Explains (some f) (w.reportedSince (w₁.report f).1 origin) w (w₁.report f).1 := by
  obtain ⟨d, hd⟩ := exists_diagnostic hstalled hexit
  obtain ⟨added, hreports, hadded⟩ := hadds
  have hafter : (w₁.report f).1.reports =
      w.reports ++ (added ++ [w₁.session.reporter.traceback.error d]) := by
    rw [report_of_diagnostic hfatal hd, ← List.append_assoc, ← hreports]
    exact Session.reports_push w₁ _
  rw [reportedSince_eq hafter]
  refine ⟨?_, by simpa using hafter, ?_, ?_⟩
  · rw [report_of_diagnostic hfatal hd]
    exact ⟨hfatal, Traceback.clear_clearLines _⟩
  · refine List.forall_mem_map.2 (List.forall_mem_append.2 ⟨hadded, ?_⟩)
    simpa using hpoints.names_error d
  · rintro _ ⟨⟩
    refine ⟨(origin, w₁.session.reporter.traceback.error d), by simp, d, hd, ?_⟩
    exact hpoints.error_eq d

end Explains

namespace Session

open Statement

variable {α : Type} {w w₁ : Workspace} {origin : Option (String × Int)}

namespace Warns

variable {x : Action α} (hx : Warns x)
  (hpoints : Traceback.PointsTo w.session.reporter.traceback origin)

include hx hpoints

theorem adds : Adds (Report.Names origin) w (stateLeft (x w)) := by
  refine (hx.reports w).imp fun r hr => ?_
  obtain ⟨d, rfl⟩ := hr
  exact hpoints.names_warning d

theorem explains_error {f : Failure} (hfatal : w.session.reporter.fatal = false)
    (h : x w = .error f w₁) (hstalled : f ≠ .stalled) :
    Explains (some f) (w.reportedSince (w₁.report f).1 origin) w (w₁.report f).1 := by
  have hkept := hx.reporter.of_error h
  have hadds := hx.adds hpoints
  have hexit : ∀ code, f ≠ .exit code := by
    rintro code rfl
    exact hx.stays w code (by rw [h]; rfl)
  rw [h] at hadds
  rw [← hkept] at hpoints hfatal
  exact .of_report hadds hfatal hpoints hstalled hexit

end Warns

/-- What an action that runs no statement reports is about none. -/
theorem explains_of_warns {x : Action α} (hx : Warns x) (hw : w.AllClear)
    (hends : failure? (x w) ≠ some .stalled) :
    Explains (failure? (x w)) (w.reportedSince (settled x w) none) w (settled x w) := by
  have hpoints := hw.clear.pointsTo_none
  cases hrun : x w with
  | ok a w₁ =>
    have hadds := hx.adds hpoints
    rw [hrun] at hadds
    rw [settled_of_ok hrun]
    exact .of_adds (hw.congr (hx.reporter.of_ok hrun)) hadds
  | error f w₁ =>
    have hstalled : f ≠ .stalled := fun hf => hends (by rw [hrun, hf]; rfl)
    rw [settled_of_error hrun]
    exact hx.explains_error hpoints hw.fatal hrun hstalled

/-- What a statement reports is about it, whatever has been registered before. -/
theorem explains_add {line : String} {number : Int} {path : String} (hw : w.AllClear)
    (hends : failure? (add line number path w) ≠ some .stalled) :
    Explains (failure? (add line number path w))
      (w.reportedSince (settled (add line number path) w) (some (path, number))) w
      (settled (add line number path) w) := by
  cases hblank : Text.isBlankText line with
  | true =>
    have hrun : add line number path w = .ok () w := by
      rw [add_of_blank number path hblank]
    rw [settled_of_ok hrun, hrun]
    exact .of_adds hw (.none rfl)
  | false =>
    -- The line is registered before it is read, so all that comes of it points there.
    have hwarns := warns_execute line (parse line)
    have hpoints := hw.clear.pointsTo_insert path ⟨line, number⟩
    have happly : add line number path w = _ := add_apply hblank w
    cases hexecute : execute line (parse line) (w.register path (some ⟨line, number⟩)) with
    | ok _ w₁ =>
      obtain ⟨w₂, hok, hreporter, hreports⟩ : ∃ w₂, add line number path w = .ok () w₂ ∧
          w₂.session.reporter = { w₁.session.reporter with
            traceback := w₁.session.reporter.traceback.insert path none } ∧
          w₂.reports = w₁.reports :=
        ⟨_, happly.trans (bind_of_ok hexecute), rfl, rfl⟩
      have hadds := hwarns.adds (w := w.register path (some ⟨line, number⟩)) hpoints
      have hkept := hwarns.reporter.of_ok hexecute
      have hclear : w₂.AllClear := by
        rw [hkept] at hreporter
        refine ⟨?_, ?_⟩
        · rw [hreporter]
          exact hw.fatal
        · rw [hreporter]
          exact hw.clear.insert_insert_none path _
      rw [hexecute] at hadds
      rw [settled_of_ok hok, hok]
      exact .of_adds hclear (Adds.trans hadds (.none hreports))
    | error f w₁ =>
      rw [bind_of_error hexecute] at happly
      have hstalled : f ≠ .stalled := fun hf => hends (by rw [happly, hf]; rfl)
      obtain ⟨hclear, hreports, hnames, htold⟩ := hwarns.explains_error
        (w := w.register path (some ⟨line, number⟩)) hpoints hw.fatal hexecute hstalled
      rw [settled_of_error happly, happly]
      exact ⟨hclear, hreports, hnames, htold⟩

/-- The reports of one statement of a file after another. The first failure ends the file. -/
def statementReports (path : String) : List Numbered → Workspace → List Attributed
  | [], _ => []
  | s :: rest, w =>
    w.reportedSince (settled (add s.text s.number path) w) (some (path, s.number)) ++
      match perform path s w with
      | .ok _ w₁ => statementReports path rest w₁
      | .error _ _ => []

theorem exists_flush (w : Workspace) : ∃ w₁, flush w = .ok () w₁ ∧
    w₁.session.reporter = w.session.reporter ∧ w₁.reports = w.reports := by
  refine ⟨_, flush_apply w, rfl, ?_⟩
  simp [Workspace.reports, List.filterMap_append, Event.reported?]

theorem explains_statements {path : String} {ss : List Numbered} (hw : w.AllClear)
    (hends : failure? (ss.forM (perform path) w) ≠ some .stalled) :
    Explains (failure? (ss.forM (perform path) w)) (statementReports path ss w) w
      (settled (ss.forM (perform path)) w) := by
  induction ss generalizing w with
  | nil => exact .nil hw rfl
  | cons s ss ih =>
    cases hadd : add s.text s.number path w with
    | ok _ w₁ =>
      have hfirst := explains_add hw (by rw [hadd]; nofun)
      -- Showing the results reports nothing, so the rest starts where the statement has ended.
      obtain ⟨w₂, hflush, hreporter, hreports⟩ := exists_flush w₁
      have hperform : perform path s w = .ok () w₂ := (bind_of_ok hadd).trans hflush
      have hcons : (s :: ss).forM (perform path) w = ss.forM (perform path) w₂ :=
        bind_of_ok hperform
      rw [settled_of_ok hadd, hadd] at hfirst
      have hclear : w₂.AllClear := hfirst.allClear.congr hreporter
      have hrest := (Explains.nil hclear hreports).trans (ih hclear (hcons ▸ hends))
      rw [statementReports, hperform, settled_of_ok hadd, settled_congr hcons, hcons]
      exact hfirst.trans hrest
    | error f w₁ =>
      have hperform : perform path s w = .error f w₁ := bind_of_error hadd
      have hcons : (s :: ss).forM (perform path) w = .error f w₁ := bind_of_error hperform
      have hfirst := explains_add hw (by rw [hadd]; rwa [hcons] at hends)
      rw [settled_of_error hadd, hadd] at hfirst
      rw [statementReports, hperform, settled_of_error hadd, settled_of_error hcons, hcons,
        List.append_nil]
      exact hfirst

/-- What running a file reports is about its statements, and the file is no longer registered at the
end. -/
theorem explains_runText {path text : String} (hw : w.AllClear)
    (hends : failure? (runText path text w) ≠ some .stalled) :
    Explains (failure? (runText path text w))
      (statementReports path (statements (Text.lines text)) w) w
      (settled (runText path text) w) := by
  have happly : runText path text w = _ := bind_of_ok (session_eq_ok w)
  cases hrun : (statements (Text.lines text)).forM (perform path) w with
  | ok _ w₁ =>
    have hstatements := explains_statements hw (by rw [hrun]; nofun)
    rw [settled_of_ok hrun, hrun] at hstatements
    obtain ⟨w₂, hok, hreporter, hreports⟩ : ∃ w₂, runText path text w = .ok () w₂ ∧
        w₂.session.reporter = { w₁.session.reporter with
          traceback := w₁.session.reporter.traceback.erase path } ∧
        w₂.reports = w₁.reports :=
      ⟨_, happly.trans (bind_of_ok hrun), rfl, (reports_push w₁ _).trans (List.append_nil _)⟩
    have hclear : w₂.AllClear := by
      refine ⟨?_, ?_⟩
      · rw [hreporter]
        exact hstatements.allClear.fatal
      · rw [hreporter]
        exact hstatements.allClear.clear.erase path
    rw [settled_of_ok hok, hok, ← List.append_nil (statementReports _ _ _)]
    exact hstatements.trans (.nil hclear hreports)
  | error f w₁ =>
    have herror : runText path text w = .error f w₁ := happly.trans (bind_of_error hrun)
    have hstatements := explains_statements hw (by rw [hrun]; rwa [herror] at hends)
    rw [settled_of_error hrun, hrun] at hstatements
    rw [settled_of_error herror, herror]
    exact hstatements

inductive Call
  /-- Without a path, the line belongs to the session's own file. -/
  | add (line : String) (number : Int) (path? : Option String)
  | load (path : String)
  | loadText (path text : String)
  | save (path : String)
  | define (name : String) (t : Term)
  | evaluate (t : Term)
  | step (t? : Option Term)
  | display (t : Term)
  | pop
  | flush

namespace Call

def action : Call → Action Unit
  | add line number path? => do Session.add line number (path?.getD (← session).path)
  | load path => Session.load path
  | loadText path text => Session.loadText path text
  | save path => Session.save path
  | define name t => Session.define name t
  | evaluate t => do let _ ← Session.evaluate t
  | step t? => do let _ ← Session.step t?
  | display t => do let _ := (← session).display t
  | pop => do let _ ← Session.pop
  | flush => Session.flush

/-- The file that the call runs and its text, if there is such a file and it can be decoded. -/
def program? (c : Call) (w : Workspace) : Option (String × String) :=
  match c with
  | load path => do
    let bytes ← (w.files.read path).toOption
    let text ← (Text.Utf8.decode bytes).toOption
    return (path, text)
  | loadText path text => some (path, text)
  | _ => none

/-- A file that cannot be run has only been registered, and one that can is registered first. -/
theorem load_cases (path : String) (w : Workspace) :
    (∃ f, (load path).program? w = none ∧ Session.load path w = .error f (w.register path none) ∧
      f ≠ .stalled ∧ ∀ code, f ≠ .exit code) ∨
    ∃ text, (load path).program? w = some (path, text) ∧
      Session.load path w = runText path text (w.register path none) := by
  have happly := load_apply path w
  cases hread : w.files.read path with
  | error fault =>
    have hnone : (load path).program? w = none := by simp [program?, hread, Except.toOption]
    rw [hread] at happly
    refine .inl ⟨_, hnone, happly, ?_⟩
    cases fault <;> exact ⟨nofun, nofun⟩
  | ok bytes =>
    rw [hread] at happly
    dsimp only at happly
    cases hdecode : Text.Utf8.decode bytes with
    | error fault =>
      rw [hdecode] at happly
      refine .inl ⟨_, ?_, happly, nofun, nofun⟩
      simp [program?, hread, hdecode, Except.toOption]
    | ok text =>
      rw [hdecode] at happly
      refine .inr ⟨text, ?_, happly⟩
      simp [program?, hread, hdecode, Except.toOption]

def statement? (c : Call) (w : Workspace) : Option (String × Int) :=
  match c with
  | add _ number path? => some (path?.getD w.session.path, number)
  | _ => none

/-- The reports of a call, each with the statement that was running. -/
def reports (c : Call) (w : Workspace) : List Attributed :=
  match c.program? w with
  | some (path, text) => statementReports path (statements (Text.lines text)) (w.register path none)
  | none => w.reportedSince (settled c.action w) (c.statement? w)

end Call

/-- A file that is run is registered first. -/
theorem explains_registered {x : Action Unit} {path text : String} (hw : w.AllClear)
    (h : x w = runText path text (w.register path none)) (hends : failure? (x w) ≠ some .stalled) :
    Explains (failure? (x w))
      (statementReports path (statements (Text.lines text)) (w.register path none)) w
      (settled x w) := by
  have hregister : (w.register path none).AllClear := ⟨hw.fatal, hw.clear.insert_none path⟩
  rw [h] at hends
  rw [settled_congr h, h]
  obtain ⟨hclear, hreports, hnames, htold⟩ := explains_runText hregister hends
  exact ⟨hclear, hreports, hnames, htold⟩

theorem explains_load {path : String} (hw : w.AllClear)
    (hends : failure? (load path w) ≠ some .stalled) :
    Explains (failure? (load path w)) ((Call.load path).reports w) w (settled (load path) w) := by
  rcases Call.load_cases path w with ⟨f, hnone, hload, hstalled, hexit⟩ | ⟨text, hfile, hload⟩
  · have hreports : (Call.load path).reports w = w.reportedSince (settled (load path) w) none := by
      rw [Call.reports, hnone]
      rfl
    rw [hreports, settled_of_error hload, hload]
    exact .of_report (.none rfl) hw.fatal (hw.clear.insert_none path).pointsTo_none hstalled hexit
  · have hreports : (Call.load path).reports w =
        statementReports path (statements (Text.lines text)) (w.register path none) := by
      rw [Call.reports, hfile]
    rw [hreports]
    exact explains_registered hw hload hends

/-- Every call explains what it reports and leaves all clear. -/
theorem explains_call {c : Call} (hw : w.AllClear) (hends : failure? (c.action w) ≠ some .stalled) :
    Explains (failure? (c.action w)) (c.reports w) w (settled c.action w) := by
  cases c with
  | add line number path? => exact explains_add hw hends
  | load path => exact explains_load hw hends
  | loadText path text => exact explains_registered hw (loadText_apply path text w) hends
  | save path => exact explains_of_warns (warns_save path) hw hends
  | define name t => exact explains_of_warns (warns_define name t) hw hends
  | evaluate t => exact explains_of_warns (.bind (warns_evaluate t) fun _ => .pure _) hw hends
  | step t? => exact explains_of_warns (.bind (warns_step t?) fun _ => .pure _) hw hends
  | display t => exact explains_of_warns (.bind .session fun _ => .pure _) hw hends
  | pop => exact explains_of_warns (.bind warns_pop fun _ => .pure _) hw hends
  | flush => exact explains_of_warns warns_flush hw hends

/-- The workspaces after any calls in a session that has just started. -/
inductive Reached : Workspace → Prop
  | start {w : Workspace} {path : String} {settings : Settings} {environment : Environment}
    (h : w.session = { Session.start path settings false with environment }) : Reached w
  | call {w : Workspace} (c : Call) (hw : Reached w)
    (hends : failure? (c.action w) ≠ some .stalled) :
    Reached (settled c.action w)
  /-- Between the calls, settings and files may change. -/
  | meanwhile {w w' : Workspace} (hw : Reached w)
    (hreporter : w'.session.reporter = w.session.reporter) : Reached w'

theorem Reached.allClear (h : Reached w) : w.AllClear := by
  induction h with
  | start h =>
    refine ⟨?_, ?_⟩
    · rw [h]
      rfl
    · rw [h]
      exact Traceback.clear_empty.insert_none _
  | call c _ hends ih => exact (explains_call ih hends).allClear
  | meanwhile _ hreporter ih => exact ih.congr hreporter

/-- After any call, no line is registered. What the call has reported starts with the file and the
number of the statement that was running, or with no place at all if none was, and its failure is
among it. -/
theorem reports_name_their_statement (w : Workspace) (c : Call) (hw : Reached w)
    (hends : failure? (c.action w) ≠ some .stalled) :
    (∀ e ∈ (settled c.action w).session.reporter.traceback.entries, e.2 = none) ∧
      (settled c.action w).reports = w.reports ++ (c.reports w).map Prod.snd ∧
      (∀ r ∈ c.reports w, Report.Names r.1 r.2) ∧
      ∀ f, failure? (c.action w) = some f → ∃ r, (c.reports w).getLast? = some r ∧ r.Tells f := by
  obtain ⟨hclear, hreports, hnames, htold⟩ := explains_call hw.allClear hends
  exact ⟨hclear.clear, hreports, hnames, htold⟩

/-- A file that is not there and a line that fails come before a file with an endless reduction and,
over two lines, a parenthesis too many. -/
theorem reports_name_their_statement_after_failures :
    let start : Workspace :=
      { session := Session.start "<in>" { maxSteps := .steps 2 } false
        files := Files.add {} "a.lc"
          (Text.Utf8.encode "id = \\x. x\n(\\x. x x) (\\x. x x)\n\n(id\n))\n")
        patience := 10 }
    let w := settled (Call.add ")" 7 none).action (settled (Call.load "b.lc").action start)
    let w' := settled (Call.load "a.lc").action w
    Reached w ∧ w.session.reporter.traceback.entries = [("<in>", none), ("b.lc", none)] ∧
      (∃ warning error, w'.reports = w.reports ++ [warning, error] ∧
        Report.Names (some ("a.lc", 2)) warning ∧ Report.Names (some ("a.lc", 4)) error) ∧
      ∀ e ∈ w'.session.reporter.traceback.entries, e.2 = none := by
  intro start w w'
  obtain ⟨hload, hadd, hkeys, hends, horigins⟩ :
      failure? ((Call.load "b.lc").action start) ≠ some .stalled ∧
      failure? ((Call.add ")" 7 none).action (settled (Call.load "b.lc").action start)) ≠
        some .stalled ∧
      w.session.reporter.traceback.entries = [("<in>", none), ("b.lc", none)] ∧
      failure? ((Call.load "a.lc").action w) ≠ some .stalled ∧
      ((Call.load "a.lc").reports w).map Prod.fst = [some ("a.lc", 2), some ("a.lc", 4)] := by
    decide +kernel
  have hstart : Reached start := Reached.start rfl
  have hreached : Reached w :=
    Reached.call (.add ")" 7 none) (Reached.call (.load "b.lc") hstart hload) hadd
  clear_value w
  obtain ⟨hclear, hreports, hnames, -⟩ := reports_name_their_statement w (.load "a.lc") hreached
    hends
  refine ⟨hreached, hkeys, ?_, hclear⟩
  obtain ⟨⟨_, warning⟩, rest, hfirst, rfl, hrest⟩ := List.map_eq_cons_iff.1 horigins
  obtain ⟨⟨_, error⟩, rest, rfl, rfl, hnil⟩ := List.map_eq_cons_iff.1 hrest
  cases List.map_eq_nil_iff.1 hnil
  rw [hfirst] at hreports hnames
  exact ⟨warning, error, hreports, hnames (_, warning) (by simp), hnames (_, error) (by simp)⟩

end Session

end NormalOrder
