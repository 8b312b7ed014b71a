import NormalOrder.Proofs.Files
import NormalOrder.Proofs.History
import NormalOrder.Session.Storage

/-!
# Why statements fail

A statement fails if it cannot be read or if its term cannot be evaluated. The latter is so under a
blank limit, and without a limit if the reduction takes too long; a reduction with a limit always
comes to its end. A statement that fails has changed nothing in the session but the line that
reports start with.
-/

namespace NormalOrder.Reduction

variable {env : Environment} {b : Bounds}

/-- A run with a limit never needs more looks than the limit has steps, and one at its end. -/
theorem runFrom_isSome_of_limit {limit : Int} (hb : b.limit = some limit) {fuel : Nat} (t : Term)
    {steps : Nat} (hsteps : steps ≤ limit.toNat) (hfuel : limit.toNat < fuel + steps) :
    (runFrom env b fuel t steps).isSome = true := by
  induction fuel generalizing t steps with
  | zero => omega
  | succ fuel ih =>
    rw [runFrom]
    cases hmove : move env b t steps with
    | stop outcome => rfl
    | go next =>
      have hgoes : ¬limit ≤ steps := by
        intro hreached
        have hstop : b.limitReached steps = true := by
          simpa [Bounds.limitReached, hb] using hreached
        rw [move, if_pos hstop] at hmove
        cases hmove
      exact ih next (by omega) (by omega)

theorem run_isSome_of_limit {limit : Int} (hb : b.limit = some limit) (patience : Nat) (t : Term) :
    (run env b patience t).isSome = true := by
  have hlooks : b.looks patience = limit.toNat + 1 := by rw [Bounds.looks, hb]
  rw [run, hlooks]
  exact runFrom_isSome_of_limit hb t (Nat.zero_le _) (by omega)

/-- A run that outlasts some patience before it is cancelled does so without cancellation. -/
theorem runFrom_unbounded_eq_none {cancelAfter : Option Nat} {fuel : Nat} {t : Term} {steps : Nat}
    (h : runFrom env ⟨none, cancelAfter⟩ fuel t steps = none) :
    runFrom env .unbounded fuel t steps = none := by
  induction fuel generalizing t steps with
  | zero => rfl
  | succ fuel ih =>
    rw [runFrom] at h
    cases hmove : move env ⟨none, cancelAfter⟩ t steps with
    | stop outcome =>
      rw [hmove] at h
      cases h
    | go next =>
      rw [hmove] at h
      rw [runFrom, move_unbounded, step_of_move hmove]
      exact ih h

end NormalOrder.Reduction

namespace NormalOrder

/-- The workspace with a line of a file registered, or with none. -/
def Workspace.register (w : Workspace) (path : String) (entry : Option Traceback.Entry) :
    Workspace :=
  { w with session.reporter.traceback := w.session.reporter.traceback.insert path entry }

namespace Session

open NormalOrder.Action Statement

variable {w w' : Workspace} {t : Term} {f : Failure}

inductive EvaluationFails (w : Workspace) (t : Term) : Failure → Prop
  /-- The limit has no value. -/
  | blank (hlimit : w.session.limit = .blank) : EvaluationFails w t (.breakdown .blankLimit)
  /-- There is no limit, and the reduction outlasts the patience. -/
  | outlasted (hlimit : w.session.limit = .unlimited)
    (hrun : Reduction.run w.session.environment .unbounded w.patience t = none) :
    EvaluationFails w t .stalled

theorem conclude_eq_error {result? : Option Reduction.Result}
    (h : conclude t result? w = .error f w') : result? = none ∧ f = .stalled := by
  rcases result? with - | ⟨last, steps, outcome⟩
  · cases h
    exact ⟨rfl, rfl⟩
  · cases outcome <;> cases h

theorem bound_apply (w : Workspace) :
    bound w =
      match w.session.limit with
      | .unlimited => .ok none w
      | .steps count => .ok (some count) w
      | .blank => .error (.breakdown .blankLimit) w := by
  rw [bound, bind_of_ok (session_eq_ok w)]
  cases w.session.limit <;> rfl

/-- An evaluation that has started fails only because the run does not come to its end. -/
theorem run_eq_none_of_evaluate {limit : Option Int} (hbound : bound w = .ok limit w)
    (h : evaluate t w = .error f w') :
    f = .stalled ∧ ∃ cancelAfter,
      Reduction.run w.session.environment ⟨limit, cancelAfter⟩ w.patience t = none := by
  rw [evaluate_eq, bind_of_ok (get_eq_ok w), bind_of_ok hbound] at h
  obtain ⟨w₁, hfollow⟩ := followTrace_eq_ok
    (Reduction.trace w.session.environment ⟨limit, w.interrupt⟩ w.patience t).1 w
  rw [bind_of_ok hfollow] at h
  obtain ⟨hnone, hstalled⟩ := conclude_eq_error h
  rw [← Reduction.run_eq_snd_trace] at hnone
  exact ⟨hstalled, _, hnone⟩

/-- Under a blank limit nothing is evaluated. -/
theorem evaluate_of_blank (h : w.session.limit = .blank) (t : Term) :
    evaluate t w = .error (.breakdown .blankLimit) w := by
  have hbound : bound w = .error (.breakdown .blankLimit) w := by rw [bound_apply, h]
  rw [evaluate_eq, bind_of_ok (get_eq_ok w)]
  exact bind_of_error hbound

theorem evaluationFails_of_evaluate (h : evaluate t w = .error f w') : EvaluationFails w t f := by
  cases hlimit : w.session.limit with
  | unlimited =>
    obtain ⟨rfl, cancelAfter, hrun⟩ := run_eq_none_of_evaluate (by rw [bound_apply, hlimit]) h
    exact .outlasted hlimit (Reduction.runFrom_unbounded_eq_none hrun)
  | steps count =>
    obtain ⟨-, cancelAfter, hrun⟩ := run_eq_none_of_evaluate (by rw [bound_apply, hlimit]) h
    have hsome :
        (Reduction.run w.session.environment ⟨some count, cancelAfter⟩ w.patience t).isSome :=
      Reduction.run_isSome_of_limit rfl w.patience t
    rw [hrun] at hsome
    cases hsome
  | blank =>
    cases (evaluate_of_blank hlimit t).symm.trans h
    exact .blank hlimit

/-- An evaluation that fails leaves the session and the files as they were. -/
theorem eq_of_evaluate_eq_error (h : evaluate t w = .error f w') :
    w' = { w with events := w'.events, interrupt := w'.interrupt } := by
  have hkeeps : Keeps (fun w => (w.session, w.files, w.patience)) (evaluate t) :=
    keeps_evaluate (fun _ _ => rfl) (fun _ _ => rfl) t
  have hw := hkeeps.of_error h
  cases w'
  cases hw
  rfl

/-- A step is made of the given term, or of the one left by the step before; that term is stored in
any case, and the reduct in its place if there is one. -/
theorem step_apply (t? : Option Term) (w : Workspace) :
    step t? w =
      match t?.or w.session.current with
      | none =>
        .error (.reported (.remark (Text.plain "nothing to step: give a λ-term first") "")) w
      | some t =>
        .ok (Reduction.step w.session.environment t)
          { w with session.current := (Reduction.step w.session.environment t).or (some t) } := by
  obtain ⟨⟨path, settings, limit, reporter, environment, results, current⟩, files, events,
    interrupt, patience⟩ := w
  rcases t? with - | t
  · cases current <;> rfl
  · rfl

inductive StatementFails (w : Workspace) (line : String) : Failure → Prop
  | unread {fault : Fault} (hparse : parse line = .error fault) :
    StatementFails w line (.reported (fault.diagnostic line))
  | unevaluated {t : Term} {f : Failure} (hparse : parse line = .ok (.bare t))
    (ht : EvaluationFails w t f) : StatementFails w line f

section Statement

variable {line : String} {number : Int} {path : String}

theorem execute_eq_error (h : execute line (parse line) w = .error f w') :
    StatementFails w line f ∧ w' = { w with events := w'.events, interrupt := w'.interrupt } := by
  cases hparse : parse line with
  | error fault =>
    rw [hparse] at h
    cases h
    exact ⟨.unread hparse, rfl⟩
  | ok statement =>
    rw [hparse] at h
    cases statement with
    | bind name t => cases h
    | bare t =>
      rcases bind_eq_error h with hevaluate | ⟨r, w₁, -, hmodify⟩
      · exact ⟨.unevaluated hparse (evaluationFails_of_evaluate hevaluate),
          eq_of_evaluate_eq_error hevaluate⟩
      · cases hmodify

/-- Running a line is registering it, then running the statement, then forgetting it. -/
theorem add_apply (h : Text.isBlankText line = false) (w : Workspace) :
    add line number path w =
      (do execute line (parse line); modifyTraceback (·.insert path none) : Action Unit)
        (w.register path (some ⟨line, number⟩)) := by
  rw [add_of_not_blank number path h]
  rfl

theorem add_eq_error (h : add line number path w = .error f w') :
    Text.isBlankText line = false ∧ StatementFails w line f ∧
      w' = { w.register path (some ⟨line, number⟩) with
        events := w'.events, interrupt := w'.interrupt } := by
  cases hblank : Text.isBlankText line with
  | true =>
    rw [add_of_blank number path hblank] at h
    cases h
  | false =>
    rw [add_apply hblank] at h
    rcases bind_eq_error h with hexecute | ⟨_, w₁, -, hforget⟩
    · obtain ⟨hfails, hw'⟩ := execute_eq_error hexecute
      refine ⟨rfl, ?_, hw'⟩
      cases hfails with
      | unread hparse => exact .unread hparse
      | unevaluated hparse ht =>
        refine .unevaluated hparse ?_
        cases ht with
        | blank hlimit => exact .blank hlimit
        | outlasted hlimit hrun => exact .outlasted hlimit hrun
    · cases hforget

end Statement

section Load

variable {path : String}

theorem forM_printLine (texts : List String) (w : Workspace) :
    texts.forM printLine w =
      .ok () { w with
        events := w.events ++ (texts.map fun text => .printed (text ++ "\n")).toArray } := by
  induction texts generalizing w with
  | nil => simp [Pure.pure, EStateM.pure]
  | cons text texts ih =>
    have hprint : printLine text w =
        .ok () { w with events := w.events.push (.printed (text ++ "\n")) } := rfl
    have hcons : (text :: texts).forM printLine w = texts.forM printLine _ := bind_of_ok hprint
    rw [hcons, ih]
    simp

/-- Showing the results never fails. -/
theorem flush_apply (w : Workspace) :
    flush w = .ok () { w with
      session.results := []
      events :=
        w.events ++ (w.session.results.map fun text => .printed (text ++ "\n")).toArray } := by
  rw [flush, bind_of_ok (session_eq_ok w), bind_of_ok (forM_printLine w.session.results w)]
  rfl

def perform (path : String) (s : Numbered) : Action Unit := do
  add s.text s.number path
  flush

theorem perform_eq_error {s : Numbered} (h : perform path s w = .error f w') :
    add s.text s.number path w = .error f w' := by
  rcases bind_eq_error h with hadd | ⟨_, w₁, -, hflush⟩
  · exact hadd
  · rw [flush_apply] at hflush
    cases hflush

/-- A statement that has been run can be read, unless it is blank. -/
theorem parse_of_perform {s : Numbered} (h : perform path s w = .ok () w') :
    Text.isBlankText s.text = true ∨ ∃ statement, parse s.text = .ok statement := by
  cases hblank : Text.isBlankText s.text with
  | true => exact .inl rfl
  | false =>
    cases hparse : parse s.text with
    | ok statement => exact .inr ⟨statement, rfl⟩
    | error fault =>
      obtain ⟨_, w₁, hadd, -⟩ := bind_eq_ok h
      rw [add_apply hblank, hparse] at hadd
      cases hadd

/-- Running a file fails where one of its statements does. -/
theorem runText_eq_error {text : String} (h : runText path text w = .error f w') :
    ∃ front s rest w₁, statements (Text.lines text) = front ++ s :: rest ∧
      front.forM (perform path) w = .ok () w₁ ∧ add s.text s.number path w₁ = .error f w' := by
  rw [runText, bind_of_ok (session_eq_ok w)] at h
  rcases bind_eq_error h with hstatements | ⟨_, w₁, -, hrest⟩
  · obtain ⟨front, s, rest, w₁, hsplit, hfront, hs⟩ := forM_eq_error hstatements
    exact ⟨front, s, rest, w₁, hsplit, hfront, perform_eq_error hs⟩
  · cases hrest

theorem loadText_apply (path text : String) (w : Workspace) :
    loadText path text w = runText path text (w.register path none) :=
  rfl

/-- The file is registered, read and decoded, and only then run. -/
theorem load_apply (path : String) (w : Workspace) :
    load path w =
      match w.files.read path with
      | .error fault => .error (unopened path " could not be opened" fault) (w.register path none)
      | .ok bytes =>
        match Text.Utf8.decode bytes with
        | .error fault => .error (.breakdown (.undecodable fault)) (w.register path none)
        | .ok text => runText path text (w.register path none) := by
  have hregister : modifyTraceback (·.insert path none) w = .ok () (w.register path none) := rfl
  have hfiles : (w.register path none).files = w.files := rfl
  rw [load, bind_of_ok hregister, bind_of_ok (get_eq_ok _), hfiles]
  cases w.files.read path with
  | error fault => rfl
  | ok bytes =>
    simp only
    cases Text.Utf8.decode bytes <;> rfl

/-- Nothing is done for a file that cannot be written. -/
theorem save_apply (path : String) (w : Workspace) :
    save path w =
      match w.files.write path (Text.Utf8.encode (program w.session.environment)) with
      | .error fault => .error (unopened path " could not be written" fault) w
      | .ok files =>
        log Log.info ("saved " ++ toString w.session.environment.size ++ " bindings to '" ++ path ++
          "'") { w with files } := by
  rw [save, bind_of_ok (session_eq_ok w), bind_of_ok (get_eq_ok w)]
  cases w.files.write path (Text.Utf8.encode (program w.session.environment)) <;> rfl

/-- Saving that fails has done nothing. -/
theorem save_eq_error (h : save path w = .error f w') :
    w' = w ∧
      ((∃ d, f = .reported d) ∨ f = .breakdown .nullCharacter ∧ Files.hasNull path = true) := by
  rw [save_apply] at h
  cases hwrite : w.files.write path (Text.Utf8.encode (program w.session.environment)) with
  | ok files =>
    rw [hwrite] at h
    cases h
  | error fault =>
    rw [hwrite] at h
    obtain ⟨rfl, rfl⟩ := EStateM.Result.error.inj h
    refine ⟨rfl, ?_⟩
    cases fault with
    | unavailable => exact .inl ⟨_, rfl⟩
    | nullCharacter => exact .inr ⟨rfl, Files.write_eq_nullCharacter_iff.1 hwrite⟩

end Load

end Session

end NormalOrder
