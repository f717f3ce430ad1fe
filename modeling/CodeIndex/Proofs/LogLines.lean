import CodeIndex.Database
import CodeIndex.Listing.View
import CodeIndex.Proofs.StoredNames

/-!
# The lines of a log

A log of the database can be read as a listing is read, line by line. An identifier in it stands for
the call that it was the answer to: a symbol is shown by the display form of its stored name, a file
by its path. A call for a place gives a line, which cannot be told if an identifier in it was never
given out.

What a log has to say about a call does not change any more when the log goes on, so the lines of a
log grow with it: `linesUnder_append`.
-/

namespace CodeIndex

/-- The headings under which the lines of a log and of a listing stand. -/
inductive Heading where
  | references | qualifiers | localSymbols | atomicRanges | errors
  deriving DecidableEq

/-- The lines of a view under a heading. -/
def View.under (v : View) : Heading → List String
  | .references => v.references
  | .qualifiers => v.qualifiers
  | .localSymbols => v.localSymbols
  | .atomicRanges => v.atomicRanges
  | .errors => v.errors

/-! ### Lines -/

/-- The line for a reference between two names. -/
def referenceLine (kind : ReferenceKind) (context target : String) (range : Extent) : String :=
  Text.trim (kind.label ++ ": " ++ context ++ " -> " ++ target ++ rangeClause " at " (some range))

/-- The line for a name at a place. -/
def placeLine (name : String) (range : Extent) : String := name ++ " at " ++ range.text

/-- The line for an atomic range. -/
def atomicLine (range : Extent) : String := "ATOMIC SOURCE RANGE: " ++ range.text

/-- The line for an error. -/
def errorLine (message : String) (fatal : Bool) (range : Extent) : String :=
  (if fatal then "FATAL " else "") ++ "ERROR: \"" ++ message ++ "\" at " ++ range.text

/-! ### Identifiers in a log -/

/-- The name that a call gives to what it records. -/
def Call.display? : Call → Option String
  | .symbol stored => (QualifiedName.ofStored? stored).map QualifiedName.display
  | .file path => some path
  | _ => none

/-- The kind and the two ends of the reference that a call records. -/
def Call.ends? : Call → Option (ReferenceKind × Value × Value)
  | .reference context target kind => some (kind, context, target)
  | _ => none

/-- The name of the local variable that a call records. -/
def Call.localName? : Call → Option String
  | .localSymbol name => some name
  | _ => none

namespace Log

variable {log more : List LogEntry} {v : Value}

/-- The call that gave out an identifier. -/
def issuer? (log : List LogEntry) (v : Value) : Option Call :=
  (log.find? fun e => e.call.issuesId && e.answer = v).map LogEntry.call

/-- The name of the symbol or file with an identifier. -/
def displayName? (log : List LogEntry) (v : Value) : Option String :=
  (issuer? log v).bind Call.display?

theorem issuer?_append {call : Call} (h : issuer? log v = some call) :
    issuer? (log ++ more) v = some call := by
  unfold issuer? at h ⊢
  obtain ⟨e, found, rfl⟩ := Option.map_eq_some_iff.mp h
  rw [List.find?_append, found]
  rfl

theorem displayName?_append {name : String} (h : displayName? log v = some name) :
    displayName? (log ++ more) v = some name := by
  obtain ⟨call, issued, named⟩ := Option.bind_eq_some_iff.mp h
  exact Option.bind_eq_some_iff.mpr ⟨call, issuer?_append issued, named⟩

/-- An identifier that was not given out before stands for the call that it now answers. -/
theorem issuer?_new {e : LogEntry} (issues : e.call.issuesId = true)
    (new : ∀ e' ∈ log, e'.call.issuesId = true → e'.answer ≠ e.answer) :
    issuer? (log ++ [e]) e.answer = some e.call := by
  have none : log.find? (fun e' => e'.call.issuesId && e'.answer = e.answer) = none := by
    refine List.find?_eq_none.mpr fun e' he' => ?_
    simpa using new e' he'
  rw [issuer?, List.find?_append, none, Option.none_or, List.find?_singleton]
  simp [issues]

end Log

/-! ### Calls as lines -/

namespace Call

variable {log more : List LogEntry}

/-- The heading under which a call gives a line. -/
def heading? : Call → Option Heading
  | .referenceLocation _ _ _ | .unsolvedReference _ _ _ _ => some .references
  | .qualifierLocation _ _ _ => some .qualifiers
  | .localLocation _ _ _ => some .localSymbols
  | .atomicRange _ _ => some .atomicRanges
  | .error _ _ _ _ => some .errors
  | _ => none

/-- The line for a call, if all identifiers in it are known from the log. -/
def line? (log : List LogEntry) : Call → Option String
  | .referenceLocation i _ range => do
    let (kind, context, target) ← (Log.issuer? log i).bind ends?
    return referenceLine kind (← Log.displayName? log context) (← Log.displayName? log target) range
  | .unsolvedReference context kind _ range => do
    return referenceLine kind (← Log.displayName? log context) "unsolved symbol" range
  | .qualifierLocation i _ range => do return placeLine (← Log.displayName? log i) range
  | .localLocation i _ range => do return placeLine (← (Log.issuer? log i).bind localName?) range
  | .atomicRange _ range => some (atomicLine range)
  | .error message fatal _ range => do
    return errorLine (← message.asText.toOption) fatal.holds range
  | _ => none

section

variable {v context target file : Value} {kind : ReferenceKind} {range : Extent} {name : String}

theorem line?_referenceLocation {contextName targetName : String}
    (issued : Log.issuer? log v = some (.reference context target kind))
    (hc : Log.displayName? log context = some contextName)
    (ht : Log.displayName? log target = some targetName) :
    line? log (.referenceLocation v file range) =
      some (referenceLine kind contextName targetName range) := by
  simp [line?, issued, ends?, hc, ht]

theorem line?_unsolvedReference (hc : Log.displayName? log context = some name) :
    line? log (.unsolvedReference context kind file range) =
      some (referenceLine kind name "unsolved symbol" range) := by
  simp [line?, hc]

theorem line?_qualifierLocation (hv : Log.displayName? log v = some name) :
    line? log (.qualifierLocation v file range) = some (placeLine name range) := by
  simp [line?, hv]

theorem line?_localLocation (issued : Log.issuer? log v = some (.localSymbol name)) :
    line? log (.localLocation v file range) = some (placeLine name range) := by
  simp [line?, issued, localName?]

end

/-- The line for a call under a heading, if it belongs there. -/
def linesUnder (log : List LogEntry) (call : Call) (h : Heading) : List (Option String) :=
  if call.heading? = some h then [call.line? log] else []

/-- A line that can be told stays as it is when the log goes on. -/
theorem line?_append {call : Call} {line : String} (h : call.line? log = some line) :
    call.line? (log ++ more) = some line := by
  have issued : ∀ {α : Type} {f : Call → Option α} {i : Value} {a : α},
      (Log.issuer? log i).bind f = some a → (Log.issuer? (log ++ more) i).bind f = some a := by
    intro α f i a h
    obtain ⟨call, issued, found⟩ := Option.bind_eq_some_iff.mp h
    exact Option.bind_eq_some_iff.mpr ⟨call, Log.issuer?_append issued, found⟩
  cases call with
  | referenceLocation i file range =>
    obtain ⟨⟨kind, context, target⟩, ends, h⟩ := Option.bind_eq_some_iff.mp h
    obtain ⟨c, hc, h⟩ := Option.bind_eq_some_iff.mp h
    obtain ⟨t, ht, h⟩ := Option.bind_eq_some_iff.mp h
    exact Option.bind_eq_some_iff.mpr ⟨_, issued ends, Option.bind_eq_some_iff.mpr
      ⟨c, Log.displayName?_append hc, Option.bind_eq_some_iff.mpr
        ⟨t, Log.displayName?_append ht, h⟩⟩⟩
  | unsolvedReference i kind file range | qualifierLocation i file range =>
    obtain ⟨c, hc, h⟩ := Option.bind_eq_some_iff.mp h
    exact Option.bind_eq_some_iff.mpr ⟨c, Log.displayName?_append hc, h⟩
  | localLocation i file range =>
    obtain ⟨name, hn, h⟩ := Option.bind_eq_some_iff.mp h
    exact Option.bind_eq_some_iff.mpr ⟨name, issued hn, h⟩
  | atomicRange | error => exact h
  | _ => cases h

end Call

namespace Log

/-- The lines of a log under a heading, one for each call that belongs there. A line that cannot be
told is missing. -/
def linesUnder (log : List LogEntry) (h : Heading) : List (Option String) :=
  (log.filter (·.call.heading? = some h)).map (·.call.line? log)

/-- The lines that a further call adds. -/
theorem linesUnder_append {log : List LogEntry} {h : Heading} (told : none ∉ linesUnder log h)
    (e : LogEntry) :
    linesUnder (log ++ [e]) h = linesUnder log h ++ e.call.linesUnder (log ++ [e]) h := by
  have before : (log.filter (·.call.heading? = some h)).map (·.call.line? (log ++ [e])) =
      linesUnder log h := by
    refine List.map_congr_left fun e' he' => ?_
    obtain ⟨line, hline⟩ := Option.ne_none_iff_exists'.mp
      fun none => told (none ▸ List.mem_map_of_mem he')
    rw [hline, Call.line?_append hline]
  rw [linesUnder, List.filter_append, List.map_append, before, Call.linesUnder]
  by_cases heading : e.call.heading? = some h <;> simp [heading]

end Log

end CodeIndex
