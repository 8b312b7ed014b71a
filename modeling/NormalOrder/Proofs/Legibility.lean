import NormalOrder.Proofs.Printing
import NormalOrder.Proofs.Stability

/-!
# What is printed can be typed in again

In a session that has started empty and is given nothing but texts, all names are identifiers: those
of the bindings, of the term being stepped through and of every term that an evaluation goes
through. So what is printed of these terms is read as a term again, and for a term on the way as one
with the same form.
-/

namespace NormalOrder

def Term.Lexable (t : Term) : Prop :=
  ∀ x ∈ t.names, Token.isIdentifier x = true

/-- The text is that of the term, and it is read as a term with the same form. -/
structure Term.Shows (t : Term) (text : String) : Prop where
  lexable : t.Lexable
  render : text = t.render
  parse : ∃ u, Statement.parse text = .ok (.bare u) ∧ u.globalForm = t.globalForm

theorem Term.Lexable.shows {t : Term} (h : t.Lexable) : t.Shows t.render :=
  ⟨h, rfl, t.shown, parse_render h, t.globalForm_shown⟩

namespace Evaluation

variable {e : Evaluation}

structure Lexable (e : Evaluation) : Prop where
  course : ∀ t ∈ e.course, t.Lexable
  result : ∀ r, e.result? = some r → r.term.Lexable

theorem lexable_of_plain (henv : e.environment.Plain) (ht : e.term.Lexable) : e.Lexable := by
  refine ⟨?_, ?_⟩
  · exact (Reduction.traceFrom_forall (Reduction.isIdentifier_of_step henv) _ 0 ht).1
  · exact fun r hr => Reduction.isIdentifier_of_run henv ht hr

/-- The text shows the result, with names read back or without. -/
def Answers (e : Evaluation) (text : String) : Prop :=
  ∃ r t, e.result? = some r ∧ (t = r.term ∨ t = e.environment.readBack r.term) ∧ t.Shows text

/-- The line shows a term on the way behind an arrow, or the result. -/
inductive Prints (e : Evaluation) : String → Prop
  | course {t : Term} {text : String} (ht : t ∈ e.course) (h : t.Shows text) :
    Prints e ("  → " ++ text ++ "\n")
  | result {text : String} (h : e.Answers text) : Prints e (text ++ "\n")

end Evaluation

/-- All that is in the workspace, was printed or was evaluated so far has identifiers for names, and
what waits to be shown or was printed stands for a term of one of the evaluations. -/
structure Workspace.Legible (w : Workspace) (es : List Evaluation) : Prop where
  environment : w.session.environment.Plain
  current : ∀ t, w.session.current = some t → t.Lexable
  evaluations : ∀ e ∈ es, e.Lexable
  results : ∀ s ∈ w.session.results, ∃ e ∈ es, e.Answers s
  printed : ∀ s ∈ w.printed, ∃ e ∈ es, e.Prints s

/-- The displayed result of an evaluation shows it. -/
theorem Session.answers_display {s : Session} {e : Evaluation} {r : Reduction.Result}
    (henv : s.environment.Plain) (he : e.environment = s.environment) (hr : e.result? = some r)
    (hlexable : r.term.Lexable) : e.Answers (s.display r.term) := by
  rw [display]
  split
  · refine ⟨r, s.environment.readBack r.term, hr, Or.inr (by rw [he]), ?_⟩
    exact Term.Lexable.shows (Environment.isIdentifier_readBackUnder henv.keys [] hlexable)
  · exact ⟨r, r.term, hr, Or.inl rfl, hlexable.shows⟩

namespace Workspace.Legible

open NormalOrder.Action Session Statement

variable {α β : Type} {w w₁ : Workspace} {es es' : List Evaluation}

theorem congr (h : w.Legible es) (henvironment : w₁.session.environment = w.session.environment)
    (hcurrent : w₁.session.current = w.session.current)
    (hresults : ∀ s ∈ w₁.session.results, s ∈ w.session.results)
    (hprinted : ∀ s ∈ w₁.printed, s ∈ w.printed) : w₁.Legible es := by
  refine ⟨?_, ?_, h.evaluations, fun s hs => h.results s (hresults s hs),
    fun s hs => h.printed s (hprinted s hs)⟩
  · rw [henvironment]
    exact h.environment
  · rw [hcurrent]
    exact h.current

/-- More evaluations may have been made than what is there tells of. -/
theorem append (h : w.Legible es) (hes : ∀ e ∈ es', e.Lexable) : w.Legible (es ++ es') := by
  refine ⟨h.environment, h.current, List.forall_mem_append.2 ⟨h.evaluations, hes⟩, ?_, ?_⟩
  · intro s hs
    obtain ⟨e, he, hanswers⟩ := h.results s hs
    exact ⟨e, List.mem_append_left es' he, hanswers⟩
  · intro s hs
    obtain ⟨e, he, hprints⟩ := h.printed s hs
    exact ⟨e, List.mem_append_left es' he, hprints⟩

/-- One action after another. -/
theorem bind {x : Action α} {f : α → Action β} (hx : (stateLeft (x w)).Legible es)
    (hf : ∀ a w₁, x w = .ok a w₁ → w₁.Legible es → (stateLeft (f a w₁)).Legible es) :
    (stateLeft ((x >>= f) w)).Legible es := by
  cases hrun : x w with
  | ok a w₁ =>
    rw [hrun] at hx
    rw [bind_of_ok hrun]
    exact hf a w₁ hrun hx
  | error e w₁ =>
    rw [hrun] at hx
    rw [bind_of_error hrun]
    exact hx

/-- An action that leaves the session and what was printed as they are. -/
theorem keeps {x : Action α} (h : w.Legible es) (hsession : Keeps Workspace.session x)
    (hprinted : Keeps Workspace.printed x) : (stateLeft (x w)).Legible es := by
  have hs := hsession w
  refine h.congr (by rw [hs]) (by rw [hs]) (by simp [hs]) ?_
  rw [hprinted w]
  exact fun _ hmem => hmem

theorem register (h : w.Legible es) (path : String) (entry : Option Traceback.Entry) :
    (w.register path entry).Legible es :=
  h.congr rfl rfl (fun _ hs => hs) fun _ hs => hs

theorem insert (h : w.Legible es) {name : String} {t : Term}
    (hname : Token.isIdentifier name = true)
    (ht : t.Plain) : (stateLeft (define name t w)).Legible es := by
  have hprinted : Keeps Workspace.printed (define name t) :=
    .bind .session fun _ => .bind (keeps_printed_emit rfl) fun _ => .modify fun _ => rfl
  refine ⟨h.environment.insert hname ht, h.current, h.evaluations, h.results, ?_⟩
  rw [hprinted w]
  exact h.printed

section Evaluation

variable {t : Term}

theorem lexable_evaluation? (h : w.Legible es) (ht : t.Lexable) :
    ∀ e ∈ (evaluation? t w).toList, e.Lexable := by
  intro e he
  obtain ⟨henv, rfl⟩ := of_evaluation? (Option.mem_toList.1 he)
  exact Evaluation.lexable_of_plain (henv ▸ h.environment) ht

theorem evaluated (h : w.Legible es) (ht : t.Lexable) :
    (stateLeft (evaluate t w)).Legible (es ++ (evaluation? t w).toList) := by
  have hlexable := h.lexable_evaluation? ht
  have hmore := h.append hlexable
  have hsession : (stateLeft (evaluate t w)).session = w.session := keeps_session_evaluate t w
  refine ⟨?_, ?_, hmore.evaluations, ?_, ?_⟩
  · rw [hsession]
    exact hmore.environment
  · rw [hsession]
    exact hmore.current
  · rw [hsession]
    exact hmore.results
  · rw [printed_evaluate]
    refine List.forall_mem_append.2 ⟨hmore.printed, ?_⟩
    split
    · intro s hs
      obtain ⟨e, he, hline⟩ := List.mem_flatMap.1 hs
      obtain ⟨u, hu, rfl⟩ := List.mem_map.1 hline
      exact ⟨e, List.mem_append_right es he, .course hu ((hlexable e he).course u hu).shows⟩
    · exact fun s hs => absurd hs List.not_mem_nil

/-- The result of a term that was evaluated waits to be shown. -/
theorem answered (h : w.Legible es) (ht : t.Lexable) :
    (stateLeft ((do
      let result ← evaluate t
      modifySession fun s => { s with results := s.results ++ [s.display result.term] } :
        Action Unit) w)).Legible (es ++ (evaluation? t w).toList) := by
  refine bind (h.evaluated ht) fun r w₁ hrun h₁ => ?_
  obtain ⟨e, he, hr⟩ := result?_of_evaluate hrun
  have hmem : e ∈ (evaluation? t w).toList := Option.mem_toList.2 he
  have henv : e.environment = w₁.session.environment := by
    rw [session_of_evaluate hrun]
    exact (of_evaluation? he).1
  have hanswers : e.Answers (w₁.session.display r.term) :=
    answers_display h₁.environment henv hr ((h.lexable_evaluation? ht e hmem).result r hr)
  refine ⟨h₁.environment, h₁.current, h₁.evaluations, ?_, h₁.printed⟩
  refine List.forall_mem_append.2 ⟨h₁.results, ?_⟩
  intro s hs
  obtain rfl := List.mem_singleton.1 hs
  exact ⟨e, List.mem_append_right es hmem, hanswers⟩

end Evaluation

theorem line (h : w.Legible es) (line : String) (number : Int) (path : String) :
    (stateLeft (add line number path w)).Legible (es ++ lineEvaluations line w) := by
  rw [lineEvaluations]
  cases hblank : Text.isBlankText line with
  | true =>
    rw [add_of_blank number path hblank, if_pos rfl, List.append_nil]
    exact h
  | false =>
    have hregister := h.register path (some ⟨line, number⟩)
    rw [add_apply hblank, if_neg Bool.false_ne_true]
    refine bind ?_ fun _ w₁ _ h₁ => h₁.register path none
    cases hparse : parse line with
    | error fault =>
      rw [List.append_nil]
      exact hregister
    | ok statement =>
      obtain ⟨hplain, hname⟩ := plain_of_parse hparse
      cases statement with
      | bind name t =>
        rw [List.append_nil]
        exact hregister.insert (hname name t rfl) hplain
      | bare t => exact hregister.answered hplain.names

/-- What is shown are results that were waiting for it. -/
theorem flushed (h : w.Legible es) : (stateLeft (flush w)).Legible es := by
  have hstate : (stateLeft (flush w)).session = { w.session with results := [] } := by
    rw [flush_apply]
    rfl
  refine ⟨?_, ?_, h.evaluations, ?_, ?_⟩
  · rw [hstate]
    exact h.environment
  · rw [hstate]
    exact h.current
  · rw [hstate]
    exact fun s hs => absurd hs List.not_mem_nil
  · rw [printed_flush]
    refine List.forall_mem_append.2 ⟨h.printed, List.forall_mem_map.2 ?_⟩
    intro s hs
    obtain ⟨e, he, hanswers⟩ := h.results s hs
    exact ⟨e, he, .result hanswers⟩

section Files

variable {path : String}

theorem statements (h : w.Legible es) (ss : List Numbered) :
    (stateLeft (ss.forM (perform path) w)).Legible (es ++ fileEvaluations path ss w) := by
  -- Each statement adds its evaluations to those before it, so these are left open.
  induction ss generalizing w es with
  | nil =>
    rw [fileEvaluations, List.append_nil]
    exact h
  | cons s ss ih =>
    have hfirst : (stateLeft (perform path s w)).Legible (es ++ lineEvaluations s.text w) :=
      bind (h.line s.text s.number path) fun _ _ _ h₁ => h₁.flushed
    rw [fileEvaluations, ← List.append_assoc]
    cases hperform : perform path s w with
    | ok _ w₁ =>
      have hcons : (s :: ss).forM (perform path) w = ss.forM (perform path) w₁ :=
        bind_of_ok hperform
      rw [hperform] at hfirst
      rw [hcons]
      exact ih hfirst
    | error f w₁ =>
      have hcons : (s :: ss).forM (perform path) w = .error f w₁ := bind_of_error hperform
      rw [hperform] at hfirst
      rw [hcons, List.append_nil]
      exact hfirst

theorem ran (h : w.Legible es) (text : String) :
    (stateLeft (runText path text w)).Legible
      (es ++ fileEvaluations path (Statement.statements (Text.lines text)) w) := by
  rw [runText, bind_of_ok (session_eq_ok w)]
  refine bind (h.statements _) fun _ w₁ _ h₁ => ?_
  rw [bind_of_ok (session_eq_ok w₁)]
  refine bind ?_ fun _ w₂ _ h₂ => h₂.congr rfl rfl (fun _ hs => hs) fun _ hs => hs
  exact h₁.keeps (.emit (fun _ _ => rfl) _) (keeps_printed_emit rfl)

theorem loaded (h : w.Legible es) (path : String) :
    (stateLeft (load path w)).Legible (es ++ (Call.load path).evaluations w) := by
  have hregister := h.register path none
  rcases Call.load_cases path w with ⟨f, hnone, hload, -, -⟩ | ⟨text, hfile, hload⟩
  · have hevaluations : (Call.load path).evaluations w = [] := by
      simp [Call.evaluations, hnone]
    rw [hload, hevaluations, List.append_nil]
    exact hregister
  · have hevaluations : (Call.load path).evaluations w =
        fileEvaluations path (Statement.statements (Text.lines text)) (w.register path none) := by
      simp [Call.evaluations, hfile]
    rw [hload, hevaluations]
    exact hregister.ran text

end Files

section Steps

theorem stepped (h : w.Legible es) {t? : Option Term} (ht : ∀ t, t? = some t → t.Lexable) :
    (stateLeft (step t? w)).Legible es := by
  rw [step_apply]
  cases hchosen : t?.or w.session.current with
  | none => exact h
  | some t =>
    have hlexable : t.Lexable := by
      rcases Option.or_eq_some_iff.1 hchosen with hgiven | ⟨-, hleft⟩
      · exact ht t hgiven
      · exact h.current t hleft
    refine ⟨h.environment, ?_, h.evaluations, h.results, h.printed⟩
    intro u hu
    rcases Option.or_eq_some_iff.1 hu with hstep | ⟨-, ⟨⟩⟩
    · exact Reduction.isIdentifier_of_step h.environment t u hlexable hstep
    · exact hlexable

theorem popped (h : w.Legible es) : (stateLeft (pop w)).Legible es := by
  rw [pop, bind_of_ok (session_eq_ok w)]
  cases hresults : w.session.results with
  | nil => exact h
  | cons result rest =>
    refine h.congr rfl rfl ?_ fun _ hs => hs
    rw [hresults]
    exact fun s hs => List.mem_cons_of_mem result hs

theorem saved (h : w.Legible es) (path : String) : (stateLeft (save path w)).Legible es := by
  rw [save_apply]
  cases w.files.write path (Text.Utf8.encode (program w.session.environment)) with
  | error fault => exact h
  | ok files =>
    have hfiles : Workspace.Legible { w with files } es :=
      h.congr rfl rfl (fun _ hs => hs) fun _ hs => hs
    exact hfiles.keeps (.emit (fun _ _ => rfl) _) (keeps_printed_emit rfl)

end Steps

end Workspace.Legible

namespace Session

open NormalOrder.Action Statement

variable {w : Workspace} {es : List Evaluation}

/-- The terms of the call have been read from texts. -/
def Call.IsRead : Call → Prop
  | define name t => ∃ text, parse text = .ok (.bind name t)
  | evaluate t => ∃ text, parse text = .ok (.bare t)
  | step t? => ∀ t, t? = some t → ∃ text, parse text = .ok (.bare t)
  | _ => True

/-- A call keeps all legible, with the evaluations that it makes. -/
theorem legible_call (h : w.Legible es) {c : Call} (hc : c.IsRead) :
    (stateLeft (c.action w)).Legible (es ++ c.evaluations w) := by
  have hsilent : ∀ {c : Call}, c.evaluations w = [] → (stateLeft (c.action w)).Legible es →
      (stateLeft (c.action w)).Legible (es ++ c.evaluations w) := by
    intro c hnone hlegible
    rw [hnone, List.append_nil]
    exact hlegible
  cases c with
  | add line number path? => exact h.line line number _
  | load path => exact h.loaded path
  | loadText path text => exact (h.register path none).ran text
  | save path => exact hsilent rfl (h.saved path)
  | define name t =>
    obtain ⟨text, hparse⟩ := hc
    obtain ⟨hplain, hname⟩ := plain_of_parse hparse
    exact hsilent rfl (h.insert (hname name t rfl) hplain)
  | evaluate t =>
    obtain ⟨text, hparse⟩ := hc
    exact .bind (h.evaluated (plain_of_parse hparse).1.names) fun _ _ _ h₁ => h₁
  | step t? =>
    have hlexable : ∀ t, t? = some t → t.Lexable := by
      intro t ht
      obtain ⟨text, hparse⟩ := hc t ht
      exact (plain_of_parse hparse).1.names
    exact hsilent rfl (.bind (h.stepped hlexable) fun _ _ _ h₁ => h₁)
  | display t => exact hsilent rfl h
  | pop => exact hsilent rfl (.bind h.popped fun _ _ _ h₁ => h₁)
  | flush => exact hsilent rfl h.flushed

/-- The workspaces after any calls in a session that has started empty, whether or not the calls
fail, with all evaluations that were made. -/
inductive Typed : Workspace → List Evaluation → Prop
  | start {w : Workspace} {path : String} {settings : Settings} {fatal : Bool}
    (hsession : w.session = Session.start path settings fatal) (hevents : w.events = #[]) :
    Typed w []
  | call {w : Workspace} {es : List Evaluation} (c : Call) (hw : Typed w es) (hc : c.IsRead) :
    Typed (stateLeft (c.action w)) (es ++ c.evaluations w)
  | clear {w : Workspace} {es : List Evaluation} (hw : Typed w es) :
    Typed { w with session.environment := Roster.empty } es
  /-- Between the calls settings, files and the reporter may change, and something may be
  reported. -/
  | meanwhile {w w' : Workspace} {es : List Evaluation} (hw : Typed w es)
    (henvironment : w'.session.environment = w.session.environment)
    (hcurrent : w'.session.current = w.session.current)
    (hresults : w'.session.results = w.session.results) (hprinted : w'.printed = w.printed) :
    Typed w' es

theorem Typed.legible (h : Typed w es) : w.Legible es := by
  induction h with
  | start hsession hevents =>
    refine ⟨?_, ?_, by simp, ?_, ?_⟩
    · rw [hsession]
      exact .empty
    · rw [hsession]
      rintro t ⟨⟩
    · rw [hsession]
      exact fun s hs => absurd hs List.not_mem_nil
    · simp [Workspace.printed, hevents]
  | call c _ hc ih => exact legible_call ih hc
  | clear _ ih => exact ⟨.empty, ih.current, ih.evaluations, ih.results, ih.printed⟩
  | meanwhile _ henvironment hcurrent hresults hprinted ih =>
    exact ih.congr henvironment hcurrent (by simp [hresults]) (by simp [hprinted])

/-- In a session that is given only texts, no definition has a reference, and all names are
identifiers: of the bindings, of the term being stepped through, of every term that an evaluation
goes through and of every result. A result that waits to be shown is read as a term, and so is every
line that was printed: it shows a term on the way behind an arrow, which is read as one with the
same form, or a result. -/
theorem printed_terms_are_read_back (w : Workspace) (es : List Evaluation) (h : Typed w es) :
    (∀ e ∈ w.session.environment.entries,
      Token.isIdentifier e.1 = true ∧ e.2.references = [] ∧ e.2.Lexable) ∧
    (∀ t, w.session.current = some t → t.Lexable) ∧
    (∀ e ∈ es, (∀ t ∈ e.course, t.Lexable) ∧ ∀ r, e.result? = some r → r.term.Lexable) ∧
    (∀ s ∈ w.session.results, ∃ e ∈ es, e.Answers s ∧ ∃ u, parse s = .ok (.bare u)) ∧
    ∀ line ∈ w.printed, ∃ e ∈ es,
      (∃ t ∈ e.course, line = "  → " ++ t.render ++ "\n" ∧
        ∃ u, parse t.render = .ok (.bare u) ∧ u.globalForm = t.globalForm) ∨
      ∃ s, line = s ++ "\n" ∧ e.Answers s ∧ ∃ u, parse s = .ok (.bare u) := by
  have hlegible := h.legible
  have hread : ∀ {e : Evaluation} {s : String}, e.Answers s → ∃ u, parse s = .ok (.bare u) := by
    rintro e s ⟨r, t, -, -, hshows⟩
    obtain ⟨u, hparse, -⟩ := hshows.parse
    exact ⟨u, hparse⟩
  refine ⟨?_, hlegible.current, ?_, ?_, ?_⟩
  · intro e he
    have hplain := hlegible.environment.definitions e he
    exact ⟨hlegible.environment.keys e he, hplain.references, hplain.names⟩
  · exact fun e he => ⟨(hlegible.evaluations e he).course, (hlegible.evaluations e he).result⟩
  · intro s hs
    obtain ⟨e, he, hanswers⟩ := hlegible.results s hs
    exact ⟨e, he, hanswers, hread hanswers⟩
  · intro line hline
    obtain ⟨e, he, hprints⟩ := hlegible.printed line hline
    refine ⟨e, he, ?_⟩
    cases hprints with
    | course ht hshows =>
      obtain ⟨-, rfl, hparse⟩ := hshows
      exact Or.inl ⟨_, ht, rfl, hparse⟩
    | result hanswers => exact Or.inr ⟨_, rfl, hanswers, hread hanswers⟩

/-- The definition of `c` is put below a binder of the name that is free in it. That binder is
renamed in all that is printed. -/
theorem printed_terms_are_read_back_hidden_reference :
    let start : Workspace :=
      { session := Session.start "<in>" { trace := true } false
        patience := 10 }
    let bind := Call.add "c = \\x. y" 1 none
    let apply := Call.add "\\y. c y" 2 none
    let w := stateLeft (apply.action (stateLeft (bind.action start)))
    let es := [] ++ bind.evaluations start ++ apply.evaluations (stateLeft (bind.action start))
    Typed w es ∧ w.session.results = ["λy1. y"] ∧
      w.printed = ["  → λy1. (λx. y) y1\n", "  → λy1. y\n"] ∧
      (∀ s ∈ w.session.results, ∃ e ∈ es, e.Answers s ∧ ∃ u, parse s = .ok (.bare u)) ∧
      ∀ e ∈ es, (∀ t ∈ e.course, t.Lexable) ∧ ∀ r, e.result? = some r → r.term.Lexable := by
  intro start bind apply w es
  have hstart : Typed start [] := .start rfl rfl
  have htyped : Typed w es := .call apply (.call bind hstart trivial) trivial
  obtain ⟨-, -, hevaluations, hresults, -⟩ := printed_terms_are_read_back w es htyped
  have htexts : w.session.results = ["λy1. y"] ∧
      w.printed = ["  → λy1. (λx. y) y1\n", "  → λy1. y\n"] := by
    decide +kernel
  exact ⟨htyped, htexts.1, htexts.2, hresults, hevaluations⟩

end Session

end NormalOrder
