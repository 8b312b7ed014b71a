import NormalOrder.Proofs.Evaluation
import NormalOrder.Proofs.Identifiers
import NormalOrder.Proofs.ReadBack

/-!
# The environments of a session

A session starts without bindings, takes lines one after another and may be cleared in between. Only
a line that is read as a binding changes the bindings; one that is read as a term does not, and
neither does one that fails. So in an environment that is reached all names are identifiers, and no
definition has a reference in it.
-/

namespace NormalOrder

namespace Session

open NormalOrder.Action

/-- How a workspace differs after bindings have been entered: they are there, and nothing was
printed. -/
structure Entered (env : Environment) (w w' : Workspace) : Prop where
  session : ∃ reporter, w'.session = { w.session with environment := env, reporter }
  files : w'.files = w.files
  events : ∃ records : List Log.Record, w'.events.toList = w.events.toList ++ records.map .logged

namespace Entered

variable {env env' : Environment} {w w' w'' : Workspace}

theorem refl (w : Workspace) : Entered w.session.environment w w :=
  ⟨⟨_, rfl⟩, rfl, [], (List.append_nil _).symm⟩

theorem trans (h : Entered env w w') (h' : Entered env' w' w'') : Entered env' w w'' := by
  obtain ⟨reporter, hsession⟩ := h.session
  obtain ⟨reporter', hsession'⟩ := h'.session
  obtain ⟨records, hevents⟩ := h.events
  obtain ⟨records', hevents'⟩ := h'.events
  refine ⟨⟨reporter', ?_⟩, h'.files.trans h.files, records ++ records', ?_⟩
  · rw [hsession', hsession]
  · rw [hevents', hevents, List.append_assoc, List.map_append]

theorem environment (h : Entered env w w') : w'.session.environment = env := by
  obtain ⟨reporter, hsession⟩ := h.session
  rw [hsession]

theorem results (h : Entered env w w') : w'.session.results = w.session.results := by
  obtain ⟨reporter, hsession⟩ := h.session
  rw [hsession]

end Entered

section Lines

variable {line : String} (number : Int) (path : String)

theorem add_of_blank (h : Text.isBlankText line = true) (w : Workspace) :
    add line number path w = .ok () w := by
  rw [add, h]
  rfl

def execute (line : String) : Except Statement.Fault Statement → Action Unit
  | .error fault => throw (.reported (fault.diagnostic line))
  | .ok (.bind name t) => define name t
  | .ok (.bare t) => do
    let result ← evaluate t
    modifySession fun s => { s with results := s.results ++ [s.display result.term] }

theorem add_of_not_blank (h : Text.isBlankText line = false) :
    add line number path = (do
      modifyTraceback (·.insert path (some ⟨line, number⟩))
      execute line (Statement.parse line)
      modifyTraceback (·.insert path none)) := by
  rw [add, h]
  rcases Statement.parse line with fault | (⟨name, t⟩ | t)
  · rfl
  · rfl
  · simp only [execute, bind_assoc]
    rfl

theorem add_of_bind {name : String} {t : Term} (h : Text.isBlankText line = false)
    (hp : Statement.parse line = .ok (.bind name t)) (w : Workspace) :
    ∃ w', add line number path w = .ok () w' ∧
      Entered (w.session.environment.insert name t) w w' := by
  rw [add_of_not_blank number path h, hp]
  exact ⟨_, rfl, ⟨_, rfl⟩, rfl, [_], Array.toList_push⟩

theorem keeps_environment_execute {statement? : Except Statement.Fault Statement}
    (h : ∀ name t, statement? ≠ .ok (.bind name t)) :
    Keeps (·.session.environment) (execute line statement?) := by
  rcases statement? with fault | (⟨name, t⟩ | t)
  · exact .throw _
  · exact absurd rfl (h name t)
  · refine .bind ?_ fun _ => .modify fun _ => rfl
    intro w
    exact congrArg Session.environment (keeps_session_evaluate t w)

/-- A line enters the binding that it is read as, or leaves the bindings as they are. -/
theorem environment_add (line : String) (w : Workspace) :
    ((add line number path).after w).session.environment = w.session.environment ∨
      ∃ name t, Statement.parse line = .ok (.bind name t) ∧
        ((add line number path).after w).session.environment =
          w.session.environment.insert name t := by
  by_cases hblank : Text.isBlankText line = true
  · rw [after_of_ok (add_of_blank number path hblank w)]
    exact Or.inl rfl
  · have hline : Text.isBlankText line = false := Bool.eq_false_iff.2 hblank
    by_cases hbind : ∃ name t, Statement.parse line = .ok (.bind name t)
    · obtain ⟨name, t, hp⟩ := hbind
      obtain ⟨w', hadd, hentered⟩ := add_of_bind number path hline hp w
      refine Or.inr ⟨name, t, hp, ?_⟩
      rw [after_of_ok hadd, hentered.environment]
    · have htraceback : ∀ f, Keeps (·.session.environment) (modifyTraceback f) :=
        fun f => .modify fun _ => rfl
      have hexecute : Keeps (·.session.environment) (execute line (Statement.parse line)) :=
        keeps_environment_execute fun name t hp => hbind ⟨name, t, hp⟩
      rw [add_of_not_blank number path hline]
      exact Or.inl (((htraceback _).bind fun _ => hexecute.bind fun _ => htraceback _).after w)

end Lines

inductive Change
  | line (text : String) (number : Int) (path : String)
  | clear

def Change.action : Change → Action Unit
  | line text number path => add text number path
  | clear => modifySession fun s => { s with environment := Roster.empty }

def afterAll (changes : List Change) (w : Workspace) : Workspace :=
  changes.foldl (fun w change => change.action.after w) w

end Session

namespace Environment

/-- The environments that a session can come to. -/
def Reached (env : Environment) : Prop :=
  ∃ changes w, w.session.environment = Roster.empty ∧
    (Session.afterAll changes w).session.environment = env

/-- All definitions are such as a text is read as, and so are their names. -/
structure Plain (env : Environment) : Prop where
  keys : ∀ e ∈ env.entries, Token.isIdentifier e.1 = true
  definitions : ∀ e ∈ env.entries, e.2.Plain

namespace Plain

theorem empty : Plain Roster.empty :=
  ⟨by simp [Roster.empty], by simp [Roster.empty]⟩

theorem insert {env : Environment} {name : String} {t : Term} (h : env.Plain)
    (hname : Token.isIdentifier name = true) (ht : t.Plain) : Plain (env.insert name t) := by
  constructor
  · intro e he
    rcases Roster.mem_entries_of_insert he with rfl | he
    · exact hname
    · exact h.keys e he
  · intro e he
    rcases Roster.mem_entries_of_insert he with rfl | he
    · exact ht
    · exact h.definitions e he

theorem referenceFree {env : Environment} (h : env.Plain) : env.ReferenceFree :=
  fun e he => (h.definitions e he).references

theorem change {w : Workspace} (h : w.session.environment.Plain) (change : Session.Change) :
    (change.action.after w).session.environment.Plain := by
  cases change with
  | line text number path =>
    rcases Session.environment_add number path text w with hsame | ⟨name, t, hp, hinsert⟩
    · rw [Session.Change.action, hsame]
      exact h
    · obtain ⟨ht, hname⟩ := Statement.plain_of_parse hp
      rw [Session.Change.action, hinsert]
      exact h.insert (hname name t rfl) ht
  | clear => exact empty

theorem afterAll {w : Workspace} (h : w.session.environment.Plain) (changes : List Session.Change) :
    (Session.afterAll changes w).session.environment.Plain := by
  induction changes generalizing w with
  | nil => exact h
  | cons change changes ih => exact ih (h.change change)

end Plain

theorem Reached.plain {env : Environment} (h : env.Reached) : env.Plain := by
  obtain ⟨changes, w, hempty, rfl⟩ := h
  refine Plain.afterAll ?_ changes
  rw [hempty]
  exact .empty

end Environment

end NormalOrder
