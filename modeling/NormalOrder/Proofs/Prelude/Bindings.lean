import NormalOrder.Prelude
import NormalOrder.Proofs.Indentation
import NormalOrder.Proofs.Nameless.Application
import NormalOrder.Proofs.Storage

/-!
# The bindings of the prelude

The prelude is a text, and its environment is what comes of reading it. Here it is read once, line
by line, so that nothing else has to look at the text: every binding is there under its name, as an
abstraction of the variables in front of its body. Loading the prelude in a session without bindings
makes this environment.
-/

namespace NormalOrder

namespace Statement

def keptChars (cs : List Char) : List Char :=
  (dropComment cs).rdropWhile Text.isBlank

def readScan (text : String) (scan : Scan) : Except Fault Statement :=
  match (Source.mk text scan.ending).arrive scan.tokens with
  | .error fault => .error (.lexical fault)
  | .ok tokens =>
    match readStatement ⟨text, scan.ending⟩ tokens with
    | .done statement _ => .ok statement
    | .failed fault _ => .error fault

theorem parse_eq_readScan (text : String) :
    parse text = readScan text (Scan.ofChars 0 text.toList) := by
  rw [parse, readScan, Cursor.ofText, Scan.ofText]
  cases Source.arrive ⟨text, (Scan.ofChars 0 text.toList).ending⟩
    (Scan.ofChars 0 text.toList).tokens <;>
    rfl

def bindingOf? (line : List Char) : Option (String × Term) :=
  match readScan (String.ofList (keptChars line)) (Scan.ofChars 0 (keptChars line)) with
  | .ok (.bind name t) => some (name, t)
  | _ => none

section LineByLine

variable {lines : List String}

theorem parse_tidy (line : String) :
    parse (tidy line) =
      readScan (String.ofList (keptChars line.toList))
        (Scan.ofChars 0 (keptChars line.toList)) := by
  have hkept : (tidy line).toList = keptChars line.toList := toList_tidy line
  rw [parse_eq_readScan, ← hkept, String.ofList_toList]

/-- Lines of which none goes on are the statements. -/
theorem map_text_statements
    (h : ∀ line ∈ lines.map String.toList,
      (keptChars line).count '(' ≤ (keptChars line).count ')') :
    (statements lines).map Numbered.text = lines.map tidy := by
  refine map_text_collect 1 fun line hline => ?_
  have hcount := h _ (List.mem_map_of_mem hline)
  have hkept : (tidy line).toList = keptChars line.toList := toList_tidy line
  simpa [goesOn, hkept] using hcount

/-- A program none of whose lines goes on is read line by line. -/
theorem bindings_eq_filterMap
    (h : ∀ line ∈ lines.map String.toList,
      (keptChars line).count '(' ≤ (keptChars line).count ')') :
    bindings lines = (lines.map String.toList).filterMap bindingOf? := by
  have hstatements : ∀ f : String → Option (String × Term),
      (statements lines).filterMap (fun s => f s.text) =
        lines.filterMap fun line => f (tidy line) := by
    intro f
    have htexts := congrArg (List.filterMap f) (map_text_statements h)
    rwa [List.filterMap_map, List.filterMap_map] at htexts
  refine (hstatements fun text =>
    match parse text with
    | .ok (.bind name t) => some (name, t)
    | _ => none).trans ?_
  rw [List.filterMap_map]
  simp only [parse_tidy]
  rfl

/-- Nothing is read of the line, or a binding. -/
def IsDeclaration (line : List Char) : Prop :=
  keptChars line = [] ∨ (keptChars line).all Text.isBlank = false ∧ (bindingOf? line).isSome = true

instance : DecidablePred IsDeclaration :=
  fun _ => inferInstanceAs (Decidable (_ ∨ _ ∧ _))

theorem bindingOf?_of_keptChars_eq_nil {line : List Char} (h : keptChars line = []) :
    bindingOf? line = none := by
  rw [bindingOf?, h]
  decide +kernel

theorem parse_of_bindingOf? {line : String} {e : String × Term}
    (h : bindingOf? line.toList = some e) : parse (tidy line) = .ok (.bind e.1 e.2) := by
  rw [parse_tidy]
  rw [bindingOf?] at h
  split at h
  · next name t hread =>
    cases h
    exact hread
  · cases h

theorem declares_of_isDeclaration (h : ∀ line ∈ lines.map String.toList, IsDeclaration line) :
    Session.Declares (lines.map tidy) ((lines.map String.toList).filterMap bindingOf?) := by
  induction lines with
  | nil => exact .nil
  | cons line lines ih =>
    rw [List.map_cons] at h
    obtain ⟨hline, hlines⟩ := List.forall_mem_cons.1 h
    have hkept : (tidy line).toList = keptChars line.toList := toList_tidy line
    rw [List.map_cons, List.map_cons]
    rcases hline with hnone | ⟨hblank, hsome⟩
    · rw [List.filterMap_cons_none (bindingOf?_of_keptChars_eq_nil hnone)]
      refine .blank ?_ (ih hlines)
      rw [Text.isBlankText, hkept, hnone]
      rfl
    · obtain ⟨e, he⟩ := Option.isSome_iff_exists.1 hsome
      rw [List.filterMap_cons_some he]
      refine .binding ?_ (parse_of_bindingOf? he) (ih hlines)
      rw [Text.isBlankText, hkept, hblank]

end LineByLine

end Statement

namespace Prelude

open Term

def table : List (String × Term) :=
  [
    ("true", lams ["t", "f"] (var "t")),
    ("false", lams ["t", "f"] (var "f")),
    ("if", lams ["b", "t", "f"] (applyAll (var "b") [var "t", var "f"])),
    ("not", lams ["b"] (applyAll (var "b") [var "false", var "true"])),
    ("and", lams ["a", "b"] (applyAll (var "a") [var "b", var "false"])),
    ("or", lams ["a", "b"] (applyAll (var "a") [var "true", var "b"])),
    ("pair", lams ["a", "b", "s"] (applyAll (var "s") [var "a", var "b"])),
    ("fst", lams ["p"] (app (var "p") (var "true"))),
    ("snd", lams ["p"] (app (var "p") (var "false"))),
    ("zero", lams ["f", "x"] (var "x")),
    ("one", lams ["f", "x"] (app (var "f") (var "x"))),
    ("two", lams ["f", "x"] (app (var "f") (app (var "f") (var "x")))),
    ("three", lams ["f", "x"] (app (var "f") (app (var "f") (app (var "f") (var "x"))))),
    ("succ", lams ["n", "f", "x"] (app (var "f") (applyAll (var "n") [var "f", var "x"]))),
    ("plus", lams ["m", "n", "f", "x"]
      (applyAll (var "m") [var "f", applyAll (var "n") [var "f", var "x"]])),
    ("mult", lams ["m", "n", "f"] (app (var "m") (app (var "n") (var "f")))),
    ("pow", lams ["b", "e"] (app (var "e") (var "b"))),
    ("pred", lams ["n", "f", "x"]
      (applyAll (var "n")
        [lams ["g", "h"] (app (var "h") (app (var "g") (var "f"))), lams ["u"] (var "x"),
          lams ["u"] (var "u")])),
    ("sub", lams ["m", "n"] (applyAll (var "n") [var "pred", var "m"])),
    ("iszero", lams ["n"] (applyAll (var "n") [lams ["x"] (var "false"), var "true"])),
    ("leq", lams ["m", "n"] (app (var "iszero") (applyAll (var "sub") [var "m", var "n"]))),
    ("eq", lams ["m", "n"]
      (applyAll (var "and")
        [applyAll (var "leq") [var "m", var "n"], applyAll (var "leq") [var "n", var "m"]])),
    ("I", lams ["x"] (var "x")),
    ("K", lams ["x", "y"] (var "x")),
    ("S", lams ["x", "y", "z"] (applyAll (var "x") [var "z", app (var "y") (var "z")])),
    ("B", lams ["f", "g", "x"] (app (var "f") (app (var "g") (var "x")))),
    ("C", lams ["f", "x", "y"] (applyAll (var "f") [var "y", var "x"])),
    ("omega", lams ["x"] (app (var "x") (var "x"))),
    ("Y", lams ["f"]
      (app (lams ["x"] (app (var "f") (app (var "x") (var "x"))))
        (lams ["x"] (app (var "f") (app (var "x") (var "x")))))),
    ("fact", app (var "Y") (lams ["r", "n"]
      (applyAll (var "if")
        [app (var "iszero") (var "n"), var "one",
          applyAll (var "mult") [var "n", app (var "r") (app (var "pred") (var "n"))]])))
  ]

section Source

open Statement (keptChars bindingOf? IsDeclaration)

/-- The lines of the prelude, character by character. -/
theorem sourceLines_read :
    (∀ line ∈ sourceLines.map String.toList,
      (keptChars line).count '(' ≤ (keptChars line).count ')') ∧
      (∀ line ∈ sourceLines.map String.toList, line.all (fun c => c ≠ '\n' ∧ c ≠ '\r') = true) ∧
      (∀ line ∈ sourceLines.map String.toList, IsDeclaration line) ∧
      (sourceLines.map String.toList).filterMap bindingOf? = table := by
  rw [sourceLines]
  simp only [List.map_cons, List.map_nil, String.toList_append]
  -- Each line is a list of characters before anything is computed, so that no text has to be
  -- decoded.
  repeat rw [String.toList_ofList]
  decide +kernel

theorem bindings_sourceLines : Statement.bindings sourceLines = table := by
  obtain ⟨hclosed, -, -, htable⟩ := sourceLines_read
  rw [Statement.bindings_eq_filterMap hclosed, htable]

theorem lines_text : Text.lines text = sourceLines := by
  obtain ⟨-, hplain, -, -⟩ := sourceLines_read
  refine Text.lines_join fun l hl c hc => ?_
  exact of_decide_eq_true (List.all_eq_true.1 (hplain _ (List.mem_map_of_mem hl)) c hc)

theorem declares_text :
    Session.Declares ((Statement.statements (Text.lines text)).map Statement.Numbered.text)
      table := by
  obtain ⟨hclosed, -, hdeclared, htable⟩ := sourceLines_read
  rw [lines_text, Statement.map_text_statements hclosed, ← htable]
  exact Statement.declares_of_isDeclaration hdeclared

end Source

theorem nodup_table : (table.map Prod.fst).Nodup := by
  decide +kernel

theorem environment_eq : environment = Roster.empty.insertAll table := by
  rw [environment, bindings_sourceLines]
  rfl

theorem entries_environment : environment.entries = table := by
  rw [environment_eq]
  exact Roster.entries_insertAll_of_nodup Roster.empty table nodup_table

/-- Loading the prelude enters its bindings, and nothing but log records comes of it otherwise. In a
session without bindings it makes the environment of the prelude. -/
theorem loadText_makes_environment {w : Workspace} (hempty : w.session.environment = Roster.empty)
    (hresults : w.session.results = []) :
    ∃ w', Session.loadText path text w = .ok () w' ∧ Session.Entered environment w w' := by
  rw [environment_eq, ← hempty]
  exact Session.loadText_of_declares path declares_text hresults

theorem find?_environment (name : String) : environment.find? name = table.lookup name := by
  rw [Roster.find?, entries_environment]

open Nameless

abbrev Yields : Nameless String → Nameless String → Prop :=
  Reduces environment.definitions

theorem yields_definition {name : String} {t : Term} (h : table.lookup name = some t) :
    Yields (.const name) t.globalForm := by
  refine .single ⟨[], .delta ?_⟩
  rw [Environment.definitions, find?_environment, h]
  rfl

/-- A name that is bound to an abstraction takes all its arguments. -/
theorem yields_body (name : String) (arguments : List (Nameless String)) {params : List String}
    {body : Term} (h : table.lookup name = some (lams params body))
    (hlength : params.length = arguments.length) :
    Yields (.applyAll (.const name) arguments)
      (body.assign .shared (Assignment.enter .const params arguments)) := by
  refine (reduces_applyAll (yields_definition h) arguments).trans ?_
  rw [globalForm, nameless_eq_assign, Assignment.ofBinders_nil]
  exact reduces_lams .shared _ body hlength

end Prelude

end NormalOrder
