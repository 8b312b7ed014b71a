import NormalOrder.Proofs.Escapes
import NormalOrder.Proofs.Roster
import NormalOrder.Report.Reporter

/-!
# Colour changes nothing but the looks

A reporter that paints what it prints goes through the same states as one that does not, and lets
the same failures through. What it prints and the messages of failures are the same once the escape
sequences are taken out, provided that no text given to it has an escape character of its own, and
that the templates of its messages have plain fields only. Any other field works on the painted
text: a width counts the escape sequences, an index picks characters from them, and quotes show
them.
-/

namespace NormalOrder

structure Diagnostic.Clean (d : Diagnostic) : Prop where
  message : d.message.Clean
  expr : Text.Clean d.expr

namespace Diagnostic

open Text

variable {d : Diagnostic} {paint : Span → String}

theorem clean_underlined (h : Text.Clean d.expr) (ink : Ink) : (d.underlined ink).Clean := by
  have hindent : Text.Clean "  " := by decide
  have hbreak : Text.Clean "\n  " := by decide
  have hcaret : Text.Clean "^" := by decide
  have hspaces := clean_repeated d.start (c := ' ') (by decide)
  have htildes := clean_repeated (d.markStop - d.start - 1) (c := '~') (by decide)
  simp only [underlined, Styled.clean_append, Styled.clean_plain, Styled.clean_inked,
    Text.clean_append]
  exact ⟨⟨⟨⟨hindent, clean_sliceTo h _⟩, clean_slice h _ _⟩, ⟨clean_sliceFrom h _, hbreak⟩,
    hspaces⟩, hcaret, htildes⟩

/-- The message of the one, painted, shows that of the other, and they are alike in all else. -/
inductive Recolours (paint : Span → String) : Diagnostic → Diagnostic → Prop
  | intro {d : Diagnostic} {message : Styled} (hmessage : Styled.Shows paint d.message message)
    (hexpr : Text.Clean d.expr) : Recolours paint d { d with message }

theorem Recolours.of_clean {d : Diagnostic} (hpaint : Wraps paint) (h : d.Clean) :
    Recolours paint d d :=
  .intro (.of_clean hpaint h.message) h.expr

end Diagnostic

namespace Traceback

open Text

variable {tb : Traceback} {d : Diagnostic}

def Clean (tb : Traceback) : Prop :=
  ∀ e ∈ tb.entries, Text.Clean e.1 ∧ ∀ entry, e.2 = some entry → Text.Clean entry.line

namespace Clean

theorem empty : Clean Roster.empty :=
  fun _ he => absurd he List.not_mem_nil

theorem insert (h : Clean tb) {path : String} {entry : Option Entry} (hpath : Text.Clean path)
    (hline : ∀ e, entry = some e → Text.Clean e.line) : Clean (tb.insert path entry) := by
  intro e he
  rcases Roster.mem_entries_of_insert he with rfl | he
  · exact ⟨hpath, hline⟩
  · exact h e he

theorem erase (h : Clean tb) (path : String) : Clean (tb.erase path) :=
  fun e he => h e (List.mem_filter.1 he).1

theorem clearLines (h : Clean tb) : Clean tb.clearLines := by
  intro e he
  obtain ⟨e', he', rfl⟩ := List.mem_map.1 he
  exact ⟨(h e' he').1, by rintro entry ⟨⟩⟩

theorem location (h : Clean tb) : tb.location.Clean := by
  rw [Traceback.location]
  split
  · next file entry hfound =>
    obtain ⟨e, he, hentry⟩ := List.exists_of_findSome?_eq_some hfound
    obtain ⟨entry', -, hpair⟩ := Option.map_eq_some_iff.1 hentry
    cases hpair
    have hcolon : Text.Clean ":" := by decide
    have hend : Text.Clean ": " := by decide
    simp only [Styled.clean_bold, Text.clean_append]
    exact ⟨⟨⟨(h e (List.mem_reverse.1 he)).1, hcolon⟩, clean_toString_int _⟩, hend⟩
  · exact Styled.clean_nil

theorem heading (h : Clean tb) : tb.heading.Clean := by
  rw [Traceback.heading]
  split
  · rw [Styled.clean_plain, Text.clean_append]
    refine ⟨clean_ofList.2 (by decide), clean_join (List.forall_mem_map.2 ?_)⟩
    rintro ⟨file, entry⟩ hshown
    obtain ⟨e, he, hentry⟩ := List.mem_filterMap.1 hshown
    split at hentry
    · next found hfound =>
      split at hentry
      · cases hentry
      · cases hentry
        obtain ⟨hfile, hline⟩ := h e he
        have hopen : Text.Clean "  File '" := clean_ofList.2 (by decide)
        have hnumber : Text.Clean "', line " := clean_ofList.2 (by decide)
        have hbreak : Text.Clean ":\n    " := clean_ofList.2 (by decide)
        have hend : Text.Clean "\n" := by decide
        simp only [Text.clean_append]
        exact ⟨⟨⟨⟨⟨⟨hopen, hfile⟩, hnumber⟩, clean_toString_int _⟩, hbreak⟩, hline _ hfound⟩, hend⟩
    · cases hentry
  · exact h.location

end Clean

section Shows

variable {d' : Diagnostic} {paint : Span → String} (hpaint : Wraps paint)

include hpaint

theorem shows_body (h : d.Recolours paint d') {label : String} (hlabel : Text.Clean label)
    (ink : Ink) :
    Styled.Shows paint (body d label ink) (body d' label ink) := by
  obtain ⟨hmessage, hexpr⟩ := h
  have hfront : Styled.Shows paint (inked ink label) (inked ink label) :=
    .of_clean hpaint (Styled.clean_inked.2 hlabel)
  have hend : Styled.Shows paint (plain "\n") (plain "\n") :=
    .of_clean hpaint (Styled.clean_plain.2 (by decide))
  refine ((hfront.append hmessage).append hend).append ?_
  change Styled.Shows paint (if d.showsExpr then d.underlined ink ++ plain "\n" else [])
    (if d.showsExpr then d.underlined ink ++ plain "\n" else [])
  split
  · exact Styled.Shows.append (.of_clean hpaint (Diagnostic.clean_underlined hexpr ink)) hend
  · exact .of_clean hpaint Styled.clean_nil

theorem Clean.shows_warning (h : Clean tb) (hd : d.Recolours paint d') :
    Styled.Shows paint (tb.warning d) (tb.warning d') :=
  Styled.Shows.append (.of_clean hpaint h.location)
    (shows_body hpaint hd (clean_ofList.2 (by decide)) .magenta)

theorem Clean.shows_error (h : Clean tb) (hd : d.Recolours paint d') :
    Styled.Shows paint (tb.error d) (tb.error d') := by
  have hinternal : Styled.Clean (if d'.internal then inked .red "[internal] " else []) := by
    split
    · exact Styled.clean_inked.2 (clean_ofList.2 (by decide))
    · exact Styled.clean_nil
  have hfront : Styled.Clean (tb.heading ++ if d'.internal then inked .red "[internal] " else []) :=
    Styled.clean_append.2 ⟨h.heading, hinternal⟩
  have hsame : d.internal = d'.internal := by
    cases hd
    rfl
  rw [Traceback.error, Traceback.error, hsame]
  exact Styled.Shows.append (.of_clean hpaint hfront)
    (shows_body hpaint hd (clean_ofList.2 (by decide)) .red)

end Shows

end Traceback

namespace Breakdown

structure Clean (b : Breakdown) : Prop where
  kind : Text.Clean b.kind
  message : Text.Clean b.message

theorem clean_template {fault : Text.Template.Fault} (h : fault.Clean) : Clean (.template fault) :=
  ⟨h.kind, h.message⟩

theorem clean_noExpression : Clean .noExpression :=
  ⟨Text.clean_ofList.2 (by decide), Text.clean_ofList.2 (by decide)⟩

end Breakdown

namespace Failure

def Clean (f : Failure) : Prop :=
  ∀ d, f.diagnostic? = some d → d.Clean

theorem clean_breakdown {b : Breakdown} (h : b.Clean) : Clean (.breakdown b) := by
  rintro d ⟨⟩
  have hcolon : Text.Clean ": " := by decide
  have hwhat : Text.Clean (b.kind ++ ": " ++ b.message) :=
    Text.clean_append.2 ⟨Text.clean_append.2 ⟨h.kind, hcolon⟩, h.message⟩
  refine ⟨?_, hwhat⟩
  rw [Text.Styled.clean_append, Text.Styled.clean_plain, Text.Styled.clean_quoted]
  exact ⟨Text.clean_ofList.2 (by decide), hwhat⟩

/-- A remark of the program's own. -/
theorem clean_remark {text : String} (h : Text.Clean text) :
    Diagnostic.Clean (.remark (Text.plain text)) := by
  have hempty : Text.Clean "" := by decide
  exact ⟨Text.Styled.clean_plain.2 h, hempty⟩

/-- The one failure shows the other. Only diagnostics can differ. -/
inductive Shows (paint : Text.Span → String) : Failure → Failure → Prop
  | reported {d d' : Diagnostic} (h : d.Recolours paint d') :
    Shows paint (.reported d) (.reported d')
  | same {f : Failure} (h : f.Clean) : Shows paint f f

def uncoloured : Failure → Failure
  | reported d => .reported { d with message := Text.plain d.said }
  | f => f

theorem Shows.uncoloured_eq {paint : Text.Span → String} {f f' : Failure} (h : Shows paint f f') :
    f.uncoloured = f'.uncoloured := by
  cases h with
  | reported h =>
    cases h
    rfl
  | same h => rfl

end Failure

namespace Reporter

open Text

inductive Cause
  | general (template : String) (exprs : List Argument) (start stop : Int)
    (diagnosis internal : Bool)
  | character (expr char : String) (position : Int)
  | grammar (template expr : String) (position : Int) (found : Option Token)
    (expected : List Token.Kind)

namespace Cause

def texts : Cause → List String
  | general template exprs _ _ _ _ => template :: exprs.map Argument.render
  | character expr char _ => [expr, char]
  | grammar template expr _ found _ => [template, expr, (found.map Token.value).getD ""]

def template? : Cause → Option String
  | general template _ _ _ _ _ => some template
  | character _ _ _ => none
  | grammar template _ _ _ _ => some template

/-- The diagnostic, unless its template cannot be filled. -/
def diagnostic {ω : Type} (objects : Template.Objects ω) (paint : Span → String) :
    Cause → Except Breakdown Diagnostic
  | general template exprs start stop diagnosis internal =>
    Diagnostic.ofTemplate objects paint template exprs start stop diagnosis internal
  | character expr char position => .ok (.unrecognized expr char position)
  | grammar template expr position found expected =>
    Diagnostic.violationOfTemplate objects paint template expr position found expected

/-- The one diagnostic shows the other, or there is the same breakdown in their places. -/
inductive Agree (paint : Span → String) :
    Except Breakdown Diagnostic → Except Breakdown Diagnostic → Prop
  | fails {b : Breakdown} (h : b.Clean) : Agree paint (.error b) (.error b)
  | tells {d d' : Diagnostic} (h : d.Recolours paint d') : Agree paint (.ok d) (.ok d')

theorem Agree.withOrigin {paint : Span → String} {r r' : Except Breakdown Diagnostic}
    (h : Agree paint r r') (origin : Diagnostic.Origin) :
    Agree paint (r.map fun d => { d with origin }) (r'.map fun d => { d with origin }) := by
  cases h with
  | fails h => exact .fails h
  | tells h =>
    obtain ⟨hmessage, hexpr⟩ := h
    exact .tells (.intro hmessage hexpr)

section Agree

variable {ω : Type} (objects : Template.Objects ω) {paint : Span → String} (hpaint : Wraps paint)

include hpaint

theorem agree_ofTemplate {template : String} {exprs : List Argument}
    (hplain : Template.IsPlain template) (htemplate : Text.Clean template)
    (hexprs : ∀ e ∈ exprs, Text.Clean e.render) (start stop : Int) (diagnosis internal : Bool) :
    Agree paint (Diagnostic.ofTemplate objects paint template exprs start stop diagnosis internal)
      (Diagnostic.ofTemplate objects (Span.render false) template exprs start stop diagnosis
        internal) := by
  have hpainted : ∀ e ∈ exprs,
      Text.Shows (Argument.text (paint ⟨e.render, .bold⟩)).render.toList e.render.toList :=
    fun e he => hpaint.shows (.of_clean (hexprs e he))
  -- Without colour, the template is filled twice with the same texts.
  have huncoloured :
      Template.fill objects (exprs.map fun e => .text (Span.render false ⟨e.render, .bold⟩))
        template =
        Template.fill objects exprs template :=
    Template.fill_map objects hplain fun _ => rfl
  rw [Diagnostic.ofTemplate.eq_def, Diagnostic.ofTemplate.eq_def]
  rcases Template.fill_map_of_shows objects hplain htemplate hpainted with
    ⟨fault, hclean, hcoloured, hfault⟩ | ⟨message, said, hshows, hcoloured, hsaid⟩
  · simp only [hcoloured, huncoloured, hfault]
    exact .fails (Breakdown.clean_template hclean)
  · cases exprs with
    | nil =>
      simp only [hcoloured, huncoloured, hsaid]
      exact .fails Breakdown.clean_noExpression
    | cons expr exprs =>
      simp only [hcoloured, huncoloured, hsaid]
      exact .tells (.intro (.plain hpaint hshows) (hexprs expr List.mem_cons_self))

theorem agree_diagnostic {c : Cause} (hclean : ∀ s ∈ c.texts, Text.Clean s)
    (hplain : ∀ t, c.template? = some t → Template.IsPlain t) :
    Agree paint (c.diagnostic objects paint) (c.diagnostic objects (Span.render false)) := by
  cases c with
  | general template exprs start stop diagnosis internal =>
    obtain ⟨htemplate, hexprs⟩ := List.forall_mem_cons.1 hclean
    exact agree_ofTemplate objects hpaint (hplain template rfl) htemplate
      (List.forall_mem_map.1 hexprs) start stop diagnosis internal
  | character expr char position =>
    obtain ⟨hexpr, hrest⟩ := List.forall_mem_cons.1 hclean
    have hchar : Text.Clean char := hrest char List.mem_cons_self
    have hmiddle : Text.Clean " contains unrecognized character " := clean_ofList.2 (by decide)
    refine .tells (.of_clean hpaint ⟨?_, hexpr⟩)
    simp only [Diagnostic.unrecognized, Styled.clean_append, Styled.clean_quoted,
      Styled.clean_plain]
    exact ⟨⟨hexpr, hmiddle⟩, hchar⟩
  | grammar template expr position found expected =>
    obtain ⟨htemplate, hexprs⟩ := List.forall_mem_cons.1 hclean
    have hargument : ∀ e ∈ [Argument.text expr, .text ((found.map Token.value).getD "")],
        Text.Clean e.render := by
      simpa [Argument.render] using hexprs
    have hagree := agree_ofTemplate objects hpaint (hplain template rfl) htemplate hargument
    exact (hagree _ _ _ _).withOrigin _

end Agree

end Cause

/-- What can be raised where a reporter stands guard. -/
inductive Incident
  | caused (cause : Cause)
  | interrupted
  | exit (code : Int)
  | tooDeep
  | other (kind message : String)

namespace Incident

def texts : Incident → List String
  | caused cause => cause.texts
  | other kind message => [kind, message]
  | _ => []

/-- A diagnostic that cannot be made is a breakdown in its place. -/
def failure {ω : Type} (objects : Template.Objects ω) (paint : Span → String) : Incident → Failure
  | caused cause =>
    match cause.diagnostic objects paint with
    | .ok d => .reported d
    | .error b => .breakdown b
  | interrupted => .interrupted
  | exit code => .exit code
  | tooDeep => .tooDeep
  | other kind message => .breakdown (.other kind message)

def template? : Incident → Option String
  | caused cause => cause.template?
  | _ => none

theorem shows_failure {ω : Type} (objects : Template.Objects ω) {paint : Span → String}
    (hpaint : Wraps paint) {i : Incident} (hclean : ∀ s ∈ i.texts, Text.Clean s)
    (hplain : ∀ t, i.template? = some t → Template.IsPlain t) :
    Failure.Shows paint (i.failure objects paint) (i.failure objects (Span.render false)) := by
  cases i with
  | caused cause =>
    have hagree := Cause.agree_diagnostic objects hpaint hclean hplain
    rw [failure, failure]
    generalize cause.diagnostic objects paint = r, cause.diagnostic objects (Span.render false) = r'
      at hagree
    cases hagree with
    | fails h => exact .same (Failure.clean_breakdown h)
    | tells h => exact .reported h
  | interrupted =>
    refine .same ?_
    rintro d ⟨⟩
    exact Failure.clean_remark (clean_ofList.2 (by decide))
  | exit code =>
    refine .same ?_
    intro d hd
    cases hd
  | tooDeep =>
    refine .same ?_
    rintro d ⟨⟩
    exact Failure.clean_remark (clean_ofList.2 (by decide))
  | other kind message =>
    obtain ⟨hkind, hmessage⟩ := List.forall_mem_cons.1 hclean
    exact .same (Failure.clean_breakdown ⟨hkind, hmessage message List.mem_cons_self⟩)

end Incident

inductive Call
  | registerFile (path : String)
  | registerLine (path line : String) (number : Int)
  | removeLine (path : String)
  | removeFile (path : String)
  | setFatal (fatal : Bool)
  | warn (template : String) (exprs : List Argument) (start stop : Int) (diagnosis internal : Bool)
  | throw (cause : Cause)
  /-- Something is raised where the reporter stands guard, or nothing is. -/
  | guard (incident : Option Incident)

def Call.texts : Call → List String
  | registerFile path => [path]
  | registerLine path line _ => [path, line]
  | removeLine path => [path]
  | removeFile path => [path]
  | setFatal _ => []
  | warn template exprs _ _ _ _ => template :: exprs.map Argument.render
  | throw cause => cause.texts
  | guard incident => (incident.map Incident.texts).getD []

def Call.template? : Call → Option String
  | warn template _ _ _ _ _ => some template
  | throw cause => cause.template?
  | guard incident => incident.bind Incident.template?
  | _ => none

structure Response where
  printed : String := ""
  /-- The traceback after the call. -/
  traceback : Traceback
  /-- The message of the diagnostic that the call is about, if it is about one. -/
  message : Option String := none
  /-- The failure that is raised, if one is. -/
  raised : Option Failure := none
  /-- The failure that was raised and ends here, if there is one, without the colour of its
  message. -/
  suppressed : Option Failure := none

/-- The response with the escape sequences taken out of its texts. -/
def Response.strip (a : Response) : Response :=
  { a with printed := Text.strip a.printed, message := a.message.map Text.strip }

section Responses

variable {ω : Type} (objects : Template.Objects ω) (paint : Span → String)

def paintedMessage? : Failure → Option String
  | .reported d => some (d.message.paint paint)
  | _ => none

/-- What comes of a call, and the reporter after it. -/
def respond (r : Reporter) : Call → Response × Reporter
  | .registerFile path =>
    let r := { r with traceback := r.traceback.insert path none }
    ({ traceback := r.traceback }, r)
  | .registerLine path line number =>
    let r := { r with traceback := r.traceback.insert path (some ⟨line, number⟩) }
    ({ traceback := r.traceback }, r)
  | .removeLine path =>
    let r := { r with traceback := r.traceback.insert path none }
    ({ traceback := r.traceback }, r)
  | .removeFile path =>
    let r := { r with traceback := r.traceback.erase path }
    ({ traceback := r.traceback }, r)
  | .setFatal fatal => ({ traceback := r.traceback }, { r with fatal })
  | .warn template exprs start stop diagnosis internal =>
    match Diagnostic.ofTemplate objects paint template exprs start stop diagnosis internal with
    | .error b => ({ traceback := r.traceback, raised := some (.breakdown b) }, r)
    | .ok d =>
      ({ printed := (r.traceback.warning d).paint paint
         traceback := r.traceback
         message := some (d.message.paint paint) }, r)
  | .throw cause =>
    match cause.diagnostic objects paint with
    | .error b => ({ traceback := r.traceback, raised := some (.breakdown b) }, r)
    | .ok d =>
      let o := r.throw d
      ({ printed := o.printed.paint paint
         traceback := o.reporter.traceback
         message := some (d.message.paint paint)
         raised := o.raised }, o.reporter)
  | .guard none => ({ traceback := r.traceback }, r)
  | .guard (some incident) =>
    let f := incident.failure objects paint
    let o := r.handle f
    ({ printed := o.printed.paint paint
       traceback := o.reporter.traceback
       message := paintedMessage? paint f
       raised := o.raised
       suppressed := if o.raised.isNone then some f.uncoloured else none }, o.reporter)

def responses (r : Reporter) : List Call → List Response
  | [] => []
  | c :: calls =>
    (respond objects paint r c).1 :: responses (respond objects paint r c).2 calls

end Responses

/-- The one outcome shows the other, and no escape character has got into the traceback. -/
structure Outcome.Shows (paint : Span → String) (o o' : Outcome) : Prop where
  printed : Styled.Shows paint o.printed o'.printed
  reporter : o.reporter = o'.reporter
  raised : o.raised = o'.raised
  traceback : o.reporter.traceback.Clean

section Colour

variable {ω : Type} (objects : Template.Objects ω) {r : Reporter} {paint : Span → String}
  (hpaint : Wraps paint)

/-- A call does to the reporter what it does without colour, and what comes of it differs in escape
sequences only. No escape character gets into the traceback. -/
def Agrees (paint : Span → String) (r : Reporter) (c : Call) : Prop :=
  (respond objects paint r c).1.strip = (respond objects (Span.render false) r c).1 ∧
    (respond objects paint r c).2 = (respond objects (Span.render false) r c).2 ∧
    (respond objects paint r c).2.traceback.Clean

theorem strip_quiet (traceback : Traceback) (raised : Option Failure) :
    Response.strip { traceback, raised } = { traceback, raised } := by
  have hempty : Text.strip "" = "" := by simp [Text.strip, stripChars]
  simp [Response.strip, hempty]

theorem strip_paint_eq {t u : Styled} (h : Styled.Shows paint t u) :
    Text.strip (t.paint paint) = u.paint (Span.render false) := by
  rw [h.strip_eq]
  exact (Styled.render_false u).symm

theorem strip_message {d d' : Diagnostic} (h : d.Recolours paint d') :
    Text.strip (d.message.paint paint) = d'.message.paint (Span.render false) := by
  obtain ⟨hmessage, -⟩ := h
  exact strip_paint_eq hmessage

include hpaint

theorem shows_throw (h : r.traceback.Clean) {d d' : Diagnostic} (hd : d.Recolours paint d') :
    Outcome.Shows paint (r.throw d) (r.throw d') := by
  rw [Reporter.throw, Reporter.throw]
  split
  · exact ⟨h.shows_error hpaint hd, rfl, rfl, h⟩
  · exact ⟨h.shows_error hpaint hd, rfl, rfl, h.clearLines⟩

theorem shows_handle (h : r.traceback.Clean) {f f' : Failure} (hf : Failure.Shows paint f f') :
    Outcome.Shows paint (r.handle f) (r.handle f') := by
  cases hf with
  | @reported d d' hd =>
    obtain ⟨hprinted, hreporter, hraised, htraceback⟩ := shows_throw hpaint h hd
    exact ⟨hprinted, hreporter, congrArg (Option.or · none) hraised, htraceback⟩
  | same hclean =>
    rw [handle]
    split
    · exact ⟨.of_clean hpaint Styled.clean_nil, rfl, rfl, h⟩
    · next d hd =>
      obtain ⟨hprinted, -, -, htraceback⟩ := shows_throw hpaint h (.of_clean hpaint (hclean d hd))
      exact ⟨hprinted, rfl, rfl, htraceback⟩

omit hpaint in
theorem strip_paintedMessage? {f f' : Failure} (hf : Failure.Shows paint f f')
    (hpaint : Wraps paint) :
    (paintedMessage? paint f).map Text.strip = paintedMessage? (Span.render false) f' := by
  cases hf with
  | reported hd => exact congrArg some (strip_message hd)
  | same hclean =>
    cases f with
    | reported d => exact congrArg some (strip_message (.of_clean hpaint (hclean d rfl)))
    | _ => rfl

theorem agrees_warn (h : r.traceback.Clean) {template : String} {exprs : List Argument}
    (hplain : Template.IsPlain template)
    (hclean : ∀ s ∈ template :: exprs.map Argument.render, Text.Clean s) (start stop : Int)
    (diagnosis internal : Bool) :
    Agrees objects paint r (.warn template exprs start stop diagnosis internal) := by
  obtain ⟨htemplate, hexprs⟩ := List.forall_mem_cons.1 hclean
  have hagree := Cause.agree_ofTemplate objects hpaint hplain htemplate
    (List.forall_mem_map.1 hexprs) start stop diagnosis internal
  rw [Agrees, respond, respond]
  generalize Diagnostic.ofTemplate objects paint template exprs start stop diagnosis internal = d,
    Diagnostic.ofTemplate objects (Span.render false) template exprs start stop diagnosis
      internal = d'
    at hagree
  cases hagree with
  | fails hb => exact ⟨strip_quiet _ _, rfl, h⟩
  | tells hd =>
    refine ⟨?_, rfl, h⟩
    simp only [Response.strip, Option.map_some, strip_paint_eq (h.shows_warning hpaint hd),
      strip_message hd]

theorem agrees_throw (h : r.traceback.Clean) {cause : Cause}
    (hplain : ∀ t, cause.template? = some t → Template.IsPlain t)
    (hclean : ∀ s ∈ cause.texts, Text.Clean s) : Agrees objects paint r (.throw cause) := by
  have hagree := Cause.agree_diagnostic objects hpaint hclean hplain
  rw [Agrees, respond, respond]
  generalize cause.diagnostic objects paint = d, cause.diagnostic objects (Span.render false) = d'
    at hagree
  cases hagree with
  | fails hb => exact ⟨strip_quiet _ _, rfl, h⟩
  | tells hd =>
    obtain ⟨hprinted, hreporter, hraised, htraceback⟩ := shows_throw hpaint h hd
    refine ⟨?_, hreporter, htraceback⟩
    simp only [Response.strip, Option.map_some, strip_paint_eq hprinted, strip_message hd,
      hreporter, hraised]

theorem agrees_guard (h : r.traceback.Clean) {incident : Incident}
    (hplain : ∀ t, incident.template? = some t → Template.IsPlain t)
    (hclean : ∀ s ∈ incident.texts, Text.Clean s) :
    Agrees objects paint r (.guard (some incident)) := by
  have hfailure := Incident.shows_failure objects hpaint hclean hplain
  obtain ⟨hprinted, hreporter, hraised, htraceback⟩ := shows_handle hpaint h hfailure
  rw [Agrees, respond, respond]
  refine ⟨?_, hreporter, htraceback⟩
  simp only [Response.strip, strip_paint_eq hprinted, strip_paintedMessage? hfailure hpaint,
    hreporter, hraised, hfailure.uncoloured_eq]

/-- What one call keeps. -/
theorem agrees (h : r.traceback.Clean) {c : Call}
    (hplain : ∀ t, c.template? = some t → Template.IsPlain t)
    (hclean : ∀ s ∈ c.texts, Text.Clean s) : Agrees objects paint r c := by
  cases c with
  | registerFile path =>
    exact ⟨strip_quiet _ _, rfl, h.insert (hclean path List.mem_cons_self) nofun⟩
  | registerLine path line number =>
    refine ⟨strip_quiet _ _, rfl, h.insert (hclean path List.mem_cons_self) ?_⟩
    rintro e ⟨⟩
    exact hclean line (List.mem_cons_of_mem path List.mem_cons_self)
  | removeLine path =>
    exact ⟨strip_quiet _ _, rfl, h.insert (hclean path List.mem_cons_self) nofun⟩
  | removeFile path => exact ⟨strip_quiet _ _, rfl, h.erase path⟩
  | setFatal fatal => exact ⟨strip_quiet _ _, rfl, h⟩
  | warn template exprs start stop diagnosis internal =>
    exact agrees_warn objects hpaint h (hplain template rfl) hclean start stop diagnosis internal
  | throw cause => exact agrees_throw objects hpaint h hplain hclean
  | guard incident =>
    cases incident with
    | none => exact ⟨strip_quiet _ _, rfl, h⟩
    | some incident => exact agrees_guard objects hpaint h hplain hclean

/-- What all calls keep, from any reporter without escape characters in its traceback. -/
theorem strip_responses (h : r.traceback.Clean) {calls : List Call}
    (hplain : ∀ c ∈ calls, ∀ t, c.template? = some t → Template.IsPlain t)
    (hclean : ∀ c ∈ calls, ∀ s ∈ c.texts, Text.Clean s) :
    (responses objects paint r calls).map Response.strip =
      responses objects (Span.render false) r calls := by
  induction calls generalizing r with
  | nil => rfl
  | cons c calls ih =>
    obtain ⟨hplain, hplain'⟩ := List.forall_mem_cons.1 hplain
    obtain ⟨hclean, hclean'⟩ := List.forall_mem_cons.1 hclean
    obtain ⟨hresponse, hreporter, htraceback⟩ := agrees objects hpaint h hplain hclean
    rw [responses, responses, List.map_cons, hresponse, ih htraceback hplain' hclean', hreporter]

end Colour

/-- A new reporter that paints its texts goes, on any calls whose texts have no escape character and
whose templates have plain fields only, through the same tracebacks as one without colour and raises
and suppresses the same failures. Its texts and the messages of its diagnostics are the same when
the escape sequences are taken out. -/
theorem colour_keeps_content {ω : Type} (objects : Template.Objects ω) (paint : Span → String)
    (hpaint : Wraps paint) (fatal : Bool) (calls : List Call)
    (hplain : ∀ c ∈ calls, ∀ t, c.template? = some t → Template.IsPlain t)
    (hclean : ∀ c ∈ calls, ∀ s ∈ c.texts, Text.Clean s) :
    (responses objects paint { fatal } calls).map Response.strip =
      responses objects (Span.render false) { fatal } calls :=
  strip_responses objects hpaint .empty hplain hclean

/-- A template with its places out of order and between braces, a number among its expressions, a
span that starts behind its end, two lines to list, and a failure that ends the program. -/
theorem colour_keeps_content_of_traceback :
    let calls : List Call :=
      [.registerLine "a.lc" "(y" 3, .registerLine "b.lc" "λx" 1,
        .warn "\x7b1\x7d in \x7b\x7b\x7b0\x7d\x7d\x7d" [.text "abc", .number 7] (-1) 1 true false,
        .throw (.character "f $" "$" 2), .setFatal true, .guard (some (.other "KeyError" "'k'"))]
    ((∀ c ∈ calls, ∀ t, c.template? = some t → Template.IsPlain t) ∧
      ∀ c ∈ calls, ∀ s ∈ c.texts, Text.Clean s) ∧
      (responses Template.Objects.absent (Span.render true) { fatal := false } calls)[2]?.map
        Response.printed =
        some ("\x1b[1mb.lc:1: \x1b[0m\x1b[1m\x1b[35mwarning: \x1b[0m\x1b[1m7\x1b[0m in \x7b" ++
          "\x1b[1mabc\x1b[0m\x7d\n  ab\x1b[1m\x1b[35m\x1b[0mbc\n  \x1b[1m\x1b[35m^~\x1b[0m\n") ∧
      (responses Template.Objects.absent (Span.render true) { fatal := false } calls).map
        Response.strip =
        responses Template.Objects.absent (Span.render false) { fatal := false } calls := by
  intro calls
  have hclean : ∀ c ∈ calls, ∀ s ∈ c.texts, Text.Clean s := by decide +kernel
  have hplain : ∀ c ∈ calls, ∀ t ∈ c.template?, Template.IsPlain t := by decide +kernel
  refine ⟨⟨hplain, hclean⟩, by decide +kernel, ?_⟩
  exact colour_keeps_content .absent (Span.render true) (wraps_render true) false calls hplain
    hclean

/-- A field with a width sees the escape sequences: with colour, they take the place of blanks. -/
theorem width_counts_escapes :
    let calls : List Call := [.warn "\x7b:>10\x7d" [.text "x"] 0 (-1) true false]
    (∀ c ∈ calls, ∀ s ∈ c.texts, Text.Clean s) ∧ Wraps (Span.render true) ∧
      (responses Template.Objects.absent (Span.render true) { fatal := false } calls).map
        Response.strip ≠
        responses Template.Objects.absent (Span.render false) { fatal := false } calls := by
  intro calls
  refine ⟨by decide +kernel, wraps_render true, ?_⟩
  intro hsame
  have hprinted := congrArg (List.map Response.printed) hsame
  revert hprinted
  decide +kernel

end Reporter

end NormalOrder
