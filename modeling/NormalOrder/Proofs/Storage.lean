import NormalOrder.Proofs.Failures
import NormalOrder.Proofs.Files
import NormalOrder.Proofs.Lines
import NormalOrder.Text.Utf8.RoundTrip

/-!
# Saved bindings can be loaded

A program may be made of blank lines and bindings only. Each of its statements enters its binding
and has no other effect than log records. A saved program is one of these: a comment and one line
for each binding, in order.
-/

namespace NormalOrder.Session

open NormalOrder.Action Statement

section Program

variable {env : Environment}

def header (env : Environment) : String :=
  ";; " ++ toString env.size ++ " bindings saved by lambda-repl"

def bindingLine (e : String × Term) : String :=
  (Statement.bind e.1 e.2).render

theorem program_eq (env : Environment) :
    program env = String.join ((header env :: env.entries.map bindingLine).map (· ++ "\n")) := by
  have hend : " bindings saved by lambda-repl\n" = " bindings saved by lambda-repl" ++ "\n" := rfl
  rw [program, header, List.map_cons, String.join_cons, List.map_map, hend, ← String.append_assoc]
  rfl

theorem forall_header (env : Environment) : ∀ c ∈ (header env).toList, c ≠ '\n' ∧ c ≠ '\r' := by
  have hdigits : ∀ c ∈ (toString env.size).toList, c ≠ '\n' ∧ c ≠ '\r' := by
    intro c hc
    have hdigit : c ∈ Nat.toDigits 10 env.size := by simpa using hc
    have hpart : Token.isIdentifierPart c = true :=
      Token.isIdentifierPart_of_isDigit (Nat.isDigit_of_mem_toDigits (by decide) (by decide) hdigit)
    exact ⟨Token.ne_of_isIdentifierPart hpart (by decide),
      Token.ne_of_isIdentifierPart hpart (by decide)⟩
  simp only [header, String.toList_append, List.forall_mem_append]
  exact ⟨⟨by simp, hdigits⟩, by simp⟩

theorem tidy_header (env : Environment) : tidy (header env) = "" := by
  rw [tidy, header, String.append_assoc, String.toList_append]
  rfl

theorem compact_bindingLine (h : env.Plain) : ∀ e ∈ env.entries, Compact (bindingLine e).toList :=
  fun e he => compact_render_bind (h.keys e he) (h.definitions e he).names

/-- The statements of a saved program are its bindings, behind an empty one. -/
theorem map_text_program (h : env.Plain) :
    (statements (Text.lines (program env))).map Numbered.text =
      "" :: env.entries.map bindingLine := by
  have hcompact := compact_bindingLine h
  have hlines : Text.lines (program env) = header env :: env.entries.map bindingLine := by
    rw [program_eq]
    apply Text.lines_join
    refine List.forall_mem_cons.2 ⟨forall_header env, ?_⟩
    rw [List.forall_mem_map]
    intro e he c hc
    obtain ⟨hfeed, hreturn, -⟩ := (hcompact e he).plain c hc
    exact ⟨hfeed, hreturn⟩
  have htidy : (env.entries.map bindingLine).map tidy = env.entries.map bindingLine := by
    rw [List.map_map]
    exact List.map_congr_left fun e he => tidy_of_compact (hcompact e he)
  rw [statements, hlines, map_text_collect 1, List.map_cons, tidy_header, htidy]
  refine List.forall_mem_cons.2 ⟨?_, ?_⟩
  · rw [tidy_header]
    rfl
  · rw [List.forall_mem_map]
    intro e he
    rw [tidy_of_compact (hcompact e he)]
    exact goesOn_of_compact (hcompact e he)

end Program

section Load

variable {env : Environment} {w : Workspace} (path : String)

theorem flush_of_no_results (h : w.session.results = []) :
    ∃ w', flush w = .ok () w' ∧ Entered w.session.environment w w' := by
  have hsame : { w.session with results := [] } = w.session := by rw [← h]
  rw [flush, bind_of_ok (session_eq_ok w), h]
  exact ⟨_, rfl, ⟨_, hsame⟩, rfl, [], (List.append_nil _).symm⟩

/-- The texts are blank or bindings, and these are the bindings in their order. -/
inductive Declares : List String → List (String × Term) → Prop
  | nil : Declares [] []
  | blank {text : String} {texts : List String} {pairs : List (String × Term)}
    (hblank : Text.isBlankText text = true) (hrest : Declares texts pairs) :
    Declares (text :: texts) pairs
  | binding {text : String} {texts : List String} {e : String × Term} {pairs : List (String × Term)}
    (hblank : Text.isBlankText text = false) (hparse : parse text = .ok (.bind e.1 e.2))
    (hrest : Declares texts pairs) : Declares (text :: texts) (e :: pairs)

/-- Statements that are blank or bindings enter the bindings one after another. -/
theorem forM_perform_of_declares {ss : List Numbered} {pairs : List (String × Term)}
    (hss : Declares (ss.map Numbered.text) pairs) (h : w.session.results = []) :
    ∃ w', ss.forM (perform path) w = .ok () w' ∧
      Entered (w.session.environment.insertAll pairs) w w' := by
  induction ss generalizing pairs w with
  | nil =>
    cases hss
    exact ⟨w, rfl, .refl w⟩
  | cons s ss ih =>
    cases hss with
    | blank hblank hrest =>
      have hadd : add s.text s.number path w = .ok () w := add_of_blank s.number path hblank w
      obtain ⟨w₁, hflush, h₁⟩ := flush_of_no_results h
      obtain ⟨w₂, hforM, h₂⟩ := ih hrest (h₁.results.trans h)
      rw [h₁.environment] at h₂
      refine ⟨w₂, ?_, h₁.trans h₂⟩
      rw [← hforM]
      exact bind_of_ok ((bind_of_ok hadd).trans hflush)
    | binding hblank hparse hrest =>
      obtain ⟨w₁, hadd, h₁⟩ := add_of_bind s.number path hblank hparse w
      obtain ⟨w₂, hflush, h₂⟩ := flush_of_no_results (h₁.results.trans h)
      have h₁₂ := h₁.trans h₂
      obtain ⟨w₃, hforM, h₃⟩ := ih hrest (h₁₂.results.trans h)
      rw [h₁₂.environment, h₁.environment] at h₃
      refine ⟨w₃, ?_, h₁₂.trans h₃⟩
      rw [← hforM]
      exact bind_of_ok ((bind_of_ok hadd).trans hflush)

theorem runText_of_declares {text : String} {pairs : List (String × Term)}
    (htext : Declares ((statements (Text.lines text)).map Numbered.text) pairs)
    (h : w.session.results = []) :
    ∃ w', runText path text w = .ok () w' ∧
      Entered (w.session.environment.insertAll pairs) w w' := by
  obtain ⟨w₁, hforM, h₁⟩ := forM_perform_of_declares path htext h
  have hall : ((statements (Text.lines text)).forM fun s => do add s.text s.number path; flush) w =
      .ok () w₁ := hforM
  rw [runText, bind_of_ok (session_eq_ok w), bind_of_ok hall]
  refine ⟨_, rfl, h₁.trans ?_⟩
  rw [← h₁.environment]
  exact ⟨⟨_, rfl⟩, rfl, [_], Array.toList_push⟩

/-- To register a file is to enter nothing. -/
theorem entered_register (w : Workspace) : Entered w.session.environment w (w.register path none) :=
  ⟨⟨_, rfl⟩, rfl, [], (List.append_nil _).symm⟩

/-- A program that is at hand enters its bindings. -/
theorem loadText_of_declares {text : String} {pairs : List (String × Term)}
    (htext : Declares ((statements (Text.lines text)).map Numbered.text) pairs)
    (h : w.session.results = []) :
    ∃ w', loadText path text w = .ok () w' ∧
      Entered (w.session.environment.insertAll pairs) w w' := by
  have h₁ := entered_register path w
  obtain ⟨w₂, hrun, h₂⟩ := runText_of_declares path htext (h₁.results.trans h)
  rw [h₁.environment] at h₂
  exact ⟨w₂, (loadText_apply path text w).trans hrun, h₁.trans h₂⟩

theorem declares_program (hplain : env.Plain) :
    Declares ((statements (Text.lines (program env))).map Numbered.text) env.entries := by
  have hlines {pairs : List (String × Term)} (hpairs : ∀ e ∈ pairs, e ∈ env.entries) :
      Declares (pairs.map bindingLine) pairs := by
    induction pairs with
    | nil => exact .nil
    | cons e pairs ih =>
      obtain ⟨he, hrest⟩ := List.forall_mem_cons.1 hpairs
      refine .binding (isBlankText_of_compact (compact_bindingLine hplain e he)) ?_ (ih hrest)
      exact parse_render_bind (hplain.keys e he) (hplain.definitions e he)
  rw [map_text_program hplain]
  exact .blank rfl (hlines fun _ he => he)

theorem load_program (hplain : env.Plain) (h : w.session.results = [])
    (hfile : w.files.read path = .ok (Text.Utf8.encode (program env))) :
    ∃ w', load path w = .ok () w' ∧
      Entered (w.session.environment.insertAll env.entries) w w' := by
  obtain ⟨w₁, hload, h₁⟩ := loadText_of_declares path (declares_program hplain) h
  refine ⟨w₁, ?_, h₁⟩
  rw [loadText_apply] at hload
  rw [load_apply, hfile]
  simp only [Text.Utf8.decode_encode]
  exact hload

/-- A file that has been saved holds the bindings as a program. -/
theorem read_of_save {w₁ : Workspace} (h : save path w = .ok () w₁) :
    w₁.files.read path = .ok (Text.Utf8.encode (program w.session.environment)) := by
  rw [save_apply] at h
  cases hwrite : w.files.write path (Text.Utf8.encode (program w.session.environment)) with
  | error fault =>
    rw [hwrite] at h
    cases h
  | ok files =>
    rw [hwrite] at h
    cases h
    exact Files.read_of_write hwrite

end Load

/-- What has been saved can be loaded in any session that has no results waiting: this enters the
saved bindings in order and prints nothing. So a session without bindings gets the saved ones, and
one that has them keeps them as they are. -/
theorem load_restores_saved (w w₁ w₂ : Workspace) (path : String)
    (henv : w.session.environment.Reached) (hsave : save path w = .ok () w₁)
    (hfile : w₂.files.read path = w₁.files.read path) (hresults : w₂.session.results = []) :
    ∃ w₃, load path w₂ = .ok () w₃ ∧
      Entered (w₂.session.environment.insertAll w.session.environment.entries) w₂ w₃ ∧
      (w₂.session.environment = Roster.empty →
        w₃.session.environment = w.session.environment) ∧
      (w₂.session.environment = w.session.environment →
        w₃.session.environment = w₂.session.environment) := by
  obtain ⟨w₃, hload, h₃⟩ :=
    load_program path henv.plain hresults (hfile.trans (read_of_save path hsave))
  refine ⟨w₃, hload, h₃, ?_, ?_⟩
  · intro hempty
    rw [h₃.environment, hempty, Roster.insertAll_empty]
  · intro hsame
    rw [h₃.environment, hsame, Roster.insertAll_of_mem _ _ fun _ he => he]

/-- The bindings were made with a line that fails and a redefinition, and are loaded where one of
the names has another definition. -/
theorem load_restores_saved_redefinition :
    let start : Workspace := { session := Session.start "<in>" {} false, patience := 10 }
    let w := afterAll [.line "k = λx. x" 1 "<in>", .line "id = λx. x" 2 "<in>",
      .line "k = (" 3 "<in>", .line "k = λx. λy. x" 4 "<in>"] start
    let environment : Environment := Roster.ofList [("id", .var "z"), ("u", .var "v")]
    w.session.environment.Reached ∧ ∃ w₁ w₃, save "k.lc" w = .ok () w₁ ∧
      load "k.lc" { start with session.environment := environment, files := w₁.files } = .ok () w₃ ∧
      w₃.session.environment.entries =
        [("id", .lam "x" (.var "x")), ("u", .var "v"), ("k", .lam "x" (.lam "y" (.var "x")))] := by
  intro start w environment
  have henv : w.session.environment.Reached := ⟨_, start, rfl, rfl⟩
  have hsucceeds : failure? (save "k.lc" w) = none := by decide +kernel
  obtain ⟨_, w₁, hsave⟩ := exists_ok hsucceeds
  obtain ⟨w₃, hload, h₃, -, -⟩ := load_restores_saved w w₁
    { start with session.environment := environment, files := w₁.files } "k.lc" henv hsave rfl rfl
  have hentries : (environment.insertAll w.session.environment.entries).entries =
      [("id", .lam "x" (.var "x")), ("u", .var "v"), ("k", .lam "x" (.lam "y" (.var "x")))] := by
    decide +kernel
  refine ⟨henv, w₁, w₃, hsave, hload, ?_⟩
  rw [h₃.environment]
  exact hentries

end NormalOrder.Session
