import CodeIndex.Proofs.CallLog

/-!
# Entries of the log

A calculus for what a computation of an indexer adds to the log. The identifiers that the database
gives out come back in later calls: a reference names the symbol that was recorded just before, and
its location names the reference. To say so one has to look at the entries of the log, which hold
the answers along with the calls. `Writes x file m Q E` says of both ends of a computation what it
adds: `Q` of the entries up to a result, `E` of those up to a fault, where `x` identifies the
innermost context and `file` the file that is indexed. The rules follow the constructs of the `do`
notation, and each of them puts the entries of what comes first in front of the entries of what
comes next.

## What is proved

* `Writes.bind` and its companions — the rules.
* `WritesEach.bind` and its companions — the rules for what each call satisfies.
* `writes_define`, `writes_visitString` and others — what both indexers log alike.
-/

namespace CodeIndex

open Indexing

variable {α β : Type}

/-! ### States -/

/-- Between the two states the entries were added to the log, and the contexts and the file are what
they were. -/
structure Adds (s t : Trace Client) (entries : List LogEntry) : Prop where
  contexts : t.contexts = s.contexts
  file : t.recorder.file = s.recorder.file
  calls : t.calls = s.calls ++ entries

/-- Between the two states the calls `xs` were made, and there is a context at the end. -/
structure Made (s t : Trace Client) (xs : List Call) : Prop where
  context : t.contexts ≠ []
  calls : ∃ more, t.calls = s.calls ++ more ∧ more.map LogEntry.call = xs

/-- References start from `x`, and places belong to `file`. -/
structure Trace.Stands (σ : Trace Client) (x file : Value) : Prop where
  context : σ.IsTop x
  file : σ.recorder.file = file

theorem Trace.exists_stands {σ : Trace Client} (context : σ.contexts ≠ []) :
    ∃ x, σ.Stands x σ.recorder.file := by
  obtain ⟨top, rest, contexts⟩ := List.exists_cons_of_ne_nil context
  exact ⟨top.id, ⟨top, rest, contexts, rfl⟩, rfl⟩

theorem Trace.Stands.ne_nil {σ : Trace Client} {x file : Value} (h : σ.Stands x file) :
    σ.contexts ≠ [] := by
  obtain ⟨top, rest, contexts, -⟩ := h.context
  simp [contexts]

namespace Adds

variable {s t u : Trace Client} {xs ys : List LogEntry}

theorem refl (s : Trace Client) : Adds s s [] := ⟨rfl, rfl, (List.append_nil _).symm⟩

theorem trans (hst : Adds s t xs) (htu : Adds t u ys) : Adds s u (xs ++ ys) :=
  ⟨htu.contexts.trans hst.contexts, htu.file.trans hst.file, by
    rw [htu.calls, hst.calls, List.append_assoc]⟩

theorem logged (s : Trace Client) (call : Call) :
    Adds s (s.logged call) [⟨call, s.recorder.database.answer call⟩] :=
  ⟨rfl, rfl, s.calls_logged call⟩

theorem made (h : Adds s t xs) (context : s.contexts ≠ []) : Made s t (xs.map LogEntry.call) :=
  ⟨h.contexts ▸ context, xs, h.calls, rfl⟩

theorem stands (h : Adds s t xs) {x file : Value} (stands : s.Stands x file) :
    t.Stands x file := by
  obtain ⟨top, rest, contexts, hx⟩ := stands.context
  exact ⟨⟨top, rest, h.contexts.trans contexts, hx⟩, h.file.trans stands.file⟩

end Adds

/-! ### The calculus -/

/-- Where `x` identifies the innermost context and `file` the file, the computation adds entries to
the log that satisfy `Q` along with its result, or ends in a fault after entries that satisfy `E`.
The contexts and the file stay what they are. -/
def Writes (x file : Value) (m : Indexing Client α) (Q : α → List LogEntry → Prop)
    (E : List LogEntry → Prop) : Prop :=
  ∀ σ : Trace Client, σ.Stands x file →
    Outcome (fun a τ => ∃ entries, Adds σ τ entries ∧ Q a entries)
      (fun τ => ∃ entries, Adds σ τ entries ∧ E entries) (m σ)

/-- A recording on the way through a tree is one call. -/
theorem emit_of_call? {r : Recording} {s : Trace Client} {call : Call}
    (h : r.call? s.recorder.file = some call) : ∃ v, emit r s = .ok v (s.logged call) := by
  cases r with
  | file | fileLanguage | namelessSymbol | signatureLocation | ambiguousReference => cases h
  | _ =>
    obtain rfl := Option.some.inj h
    exact ⟨_, rfl⟩

namespace Writes

variable {x file : Value} {m : Indexing Client α} {f : α → Indexing Client β}
  {Q : α → List LogEntry → Prop} {R : β → List LogEntry → Prop} {E : List LogEntry → Prop}

theorem mono {Q' : α → List LogEntry → Prop} {E' : List LogEntry → Prop}
    (h : Writes x file m Q E) (hQ : ∀ a entries, Q a entries → Q' a entries)
    (hE : ∀ entries, E entries → E' entries) : Writes x file m Q' E' := by
  intro σ stands
  refine (h σ stands).mono ?_ ?_
  · rintro a τ ⟨entries, adds, ha⟩
    exact ⟨entries, adds, hQ a entries ha⟩
  · rintro τ ⟨entries, adds, h⟩
    exact ⟨entries, adds, hE entries h⟩

theorem pure {a : α} (h : Q a []) : Writes x file (pure a) Q E := fun σ _ => ⟨[], .refl σ, h⟩

theorem throw {e : Fault} (h : E []) : Writes x file (throw e : Indexing Client α) Q E :=
  fun σ _ => ⟨[], .refl σ, h⟩

/-- One computation after the other. -/
theorem bind
    (h : Writes x file m
      (fun a xs => Writes x file (f a) (fun b ys => R b (xs ++ ys)) fun ys => E (xs ++ ys)) E) :
    Writes x file (m >>= f) R E := by
  intro σ stands
  refine Outcome.bind ((h σ stands).mono ?_ fun _ h => h)
  rintro a τ ⟨xs, adds, next⟩
  refine (next τ (adds.stands stands)).mono ?_ ?_
  · rintro b υ ⟨ys, adds', hb⟩
    exact ⟨xs ++ ys, adds.trans adds', hb⟩
  · rintro υ ⟨ys, adds', h⟩
    exact ⟨xs ++ ys, adds.trans adds', h⟩

/-- A computation that leaves the state alone. -/
theorem liftBind {e : Except Fault α} (hE : ∀ fault, e = .error fault → E [])
    (h : ∀ a, e = .ok a → Writes x file (f a) R E) :
    Writes x file ((liftM e : Indexing Client α) >>= f) R E := by
  cases e with
  | ok a => exact h a rfl
  | error fault => exact fun σ _ => ⟨[], .refl σ, hE fault rfl⟩

/-- One that does not fail. -/
theorem liftOk {e : Except Fault α} {a : α} (he : e = .ok a) (h : Writes x file (f a) R E) :
    Writes x file ((liftM e : Indexing Client α) >>= f) R E := by
  subst he
  exact h

theorem getBind {f : Trace Client → Indexing Client β}
    (h : ∀ σ : Trace Client, σ.Stands x file → Writes x file (f σ) R E) :
    Writes x file (get >>= f) R E :=
  fun σ stands => h σ stands σ stands

theorem contextBind {f : Context → Indexing Client β}
    (h : ∀ top : Context, top.id = x → Writes x file (f top) R E) :
    Writes x file (Indexing.context >>= f) R E := by
  intro σ stands
  obtain ⟨top, rest, contexts, hx⟩ := stands.context
  rw [context_bind, contexts]
  exact h top hx σ stands

/-- A fault is caught. -/
theorem tryCatch {handle : Fault → Indexing Client α}
    (h : Writes x file m Q fun xs =>
      ∀ e, Writes x file (handle e) (fun a ys => Q a (xs ++ ys)) fun ys => E (xs ++ ys)) :
    Writes x file (MonadExcept.tryCatch m handle) Q E := by
  intro σ stands
  refine Outcome.tryCatch ((h σ stands).mono (fun _ _ h => h) ?_)
  rintro τ ⟨xs, adds, next⟩ e
  refine (next e τ (adds.stands stands)).mono ?_ ?_
  · rintro a υ ⟨ys, adds', ha⟩
    exact ⟨xs ++ ys, adds.trans adds', ha⟩
  · rintro υ ⟨ys, adds', h⟩
    exact ⟨xs ++ ys, adds.trans adds', h⟩

/-- What is printed does not matter. -/
theorem say {Q : Unit → List LogEntry → Prop} {line : String} (h : Q () []) :
    Writes x file (Indexing.say line) Q E :=
  fun _ _ => ⟨[], ⟨rfl, rfl, (List.append_nil _).symm⟩, h⟩

/-- A computation that cannot end in a fault returns. -/
theorem returns (h : Writes x file m Q fun _ => False) {σ : Trace Client}
    (stands : σ.Stands x file) :
    ∃ a τ entries, m σ = .ok a τ ∧ Adds σ τ entries ∧ Q a entries := by
  have here := h σ stands
  cases ran : m σ with
  | ok a τ =>
    rw [ran] at here
    obtain ⟨entries, adds, ha⟩ := here
    exact ⟨a, τ, entries, rfl, adds, ha⟩
  | error e τ =>
    rw [ran] at here
    obtain ⟨_, _, impossible⟩ := here
    exact impossible.elim

/-! ### Recordings -/

/-- The answer to the recording of a symbol is its identifier. -/
theorem symbolBind {f : Value → Indexing Client β} {r : Recording} {stored : String}
    (hr : ∀ file, r.call? file = some (.symbol stored))
    (h : ∀ i, Writes x file (f i) (fun b ys => R b (⟨.symbol stored, i⟩ :: ys))
      fun ys => E (⟨.symbol stored, i⟩ :: ys)) : Writes x file (emit r >>= f) R E := by
  have emitted : ∀ σ : Trace Client, emit r σ =
      .ok (σ.recorder.database.answer (.symbol stored)) (σ.logged (.symbol stored)) := by
    intro σ
    have call := hr σ.recorder.file
    cases r with
    | symbol | namelessMember =>
      obtain rfl := Call.symbol.inj (Option.some.inj call)
      rfl
    | _ => cases call
  refine bind fun σ _ => ?_
  rw [emitted]
  exact ⟨_, .logged σ _, h _⟩

theorem note {Q : Unit → List LogEntry → Prop} {r : Recording} {call : Call}
    (hr : r.call? file = some call) (h : ∀ v, Q () [⟨call, v⟩]) :
    Writes x file (Indexing.note r) Q E := by
  intro σ stands
  rw [← stands.file] at hr
  obtain ⟨v, emitted⟩ := emit_of_call? hr
  rw [Indexing.note, bind_of_ok emitted]
  exact ⟨_, .logged σ call, h _⟩

theorem noteBind {f : Unit → Indexing Client β} {r : Recording} {call : Call}
    (hr : r.call? file = some call)
    (h : ∀ v, Writes x file (f ()) (fun b ys => R b (⟨call, v⟩ :: ys))
      fun ys => E (⟨call, v⟩ :: ys)) : Writes x file (Indexing.note r >>= f) R E :=
  bind (note hr h)

/-- A reference starts from the innermost context, and its location names it. -/
theorem refer {Q : Unit → List LogEntry → Prop} {target : Value} {kind : ReferenceKind}
    {range : SourceRange}
    (h : ∀ j v, Q () [⟨.reference x target kind, j⟩, ⟨.referenceLocation j file range, v⟩]) :
    Writes x file (Indexing.refer target kind range) Q E := by
  intro σ stands
  obtain ⟨top, rest, contexts, rfl⟩ := stands.context
  obtain rfl := stands.file
  rw [Indexing.refer, context_bind, contexts]
  let σ' := σ.logged (.reference top.id target kind)
  let located := Call.referenceLocation
    (σ.recorder.database.answer (.reference top.id target kind)) σ.recorder.file range
  exact ⟨[⟨_, _⟩, ⟨located, _⟩], (Adds.logged σ _).trans (.logged σ' _),
    h _ (σ'.recorder.database.answer located)⟩

theorem referBind {f : Unit → Indexing Client β} {target : Value} {kind : ReferenceKind}
    {range : SourceRange}
    (h : ∀ j v, Writes x file (f ())
      (fun b ys =>
        R b (⟨.reference x target kind, j⟩ :: ⟨.referenceLocation j file range, v⟩ :: ys))
      fun ys => E (⟨.reference x target kind, j⟩ :: ⟨.referenceLocation j file range, v⟩ :: ys)) :
    Writes x file (Indexing.refer target kind range >>= f) R E :=
  bind (refer h)

end Writes

/-! ### Properties of each call -/

/-- Whatever way the computation ends, each of its calls satisfies `P`. -/
def WritesEach (P : Call → Prop) (m : Indexing Client α) : Prop :=
  ∀ x file, Writes x file m (fun _ entries => ∀ e ∈ entries, P e.call)
    fun entries => ∀ e ∈ entries, P e.call

namespace WritesEach

variable {P : Call → Prop} {m : Indexing Client α} {f : α → Indexing Client β}

theorem mono {P' : Call → Prop} (h : WritesEach P m) (wider : ∀ call, P call → P' call) :
    WritesEach P' m :=
  fun x file => (h x file).mono (fun _ _ each e he => wider _ (each e he))
    fun _ each e he => wider _ (each e he)

theorem pure (a : α) : WritesEach P (pure a) := fun _ _ => .pure (by simp)

theorem throw (e : Fault) : WritesEach P (throw e : Indexing Client α) :=
  fun _ _ => .throw (by simp)

theorem bind (h : WritesEach P m) (next : ∀ a, WritesEach P (f a)) : WritesEach P (m >>= f) := by
  intro x file
  refine .bind ((h x file).mono (fun a xs each => ?_) fun _ each => each)
  exact (next a x file).mono (fun _ ys each' => List.forall_mem_append.mpr ⟨each, each'⟩)
    fun ys each' => List.forall_mem_append.mpr ⟨each, each'⟩

theorem liftBind {e : Except Fault α} (next : ∀ a, e = .ok a → WritesEach P (f a)) :
    WritesEach P ((liftM e : Indexing Client α) >>= f) :=
  fun x file => .liftBind (fun _ _ => by simp) fun a ha => next a ha x file

theorem note {r : Recording} {call : Value → Call} (hr : ∀ file, r.call? file = some (call file))
    (h : ∀ file, P (call file)) : WritesEach P (Indexing.note r) :=
  fun _ file => .note (hr file) fun _ => by simpa using h file

end WritesEach

/-! ### What both indexers log alike -/

section Both

variable {x file : Value} {c : Cursor} {E : List LogEntry → Prop}

theorem writes_referToUnsolved (kind : ReferenceKind) {range : SourceRange}
    (hr : c.range = .ok range) :
    Writes x file (referToUnsolved kind c)
      (fun _ entries => ∃ v, entries = [⟨.unsolvedReference x kind file range, v⟩]) E := by
  refine .contextBind fun top hx => .liftOk hr (.note rfl fun v => ⟨v, ?_⟩)
  rw [hx]

theorem writes_useLocal (name : String) (range : SourceRange) :
    Writes x file (useLocal name range)
      (fun _ entries => ∃ i v, entries =
        [⟨.localSymbol name, i⟩, ⟨.localLocation i file range, v⟩]) E := by
  intro σ stands
  obtain rfl := stands.file
  let σ' := σ.logged (.localSymbol name)
  let located := Call.localLocation
    (σ.recorder.database.answer (.localSymbol name)) σ.recorder.file range
  exact ⟨_, (Adds.logged σ _).trans (.logged σ' _), _, σ'.recorder.database.answer located, rfl⟩

/-- The calls for the definition at `c`, whose name stands at `name`. -/
def DefinitionCalls (name : Option Cursor) (c : Cursor) (xs : List Call) : Prop :=
  ∃ r whole stored kind i f g, rangeOf name = .ok r ∧ c.range = .ok whole ∧
    xs = [.symbol stored, .definitionKind i .explicit, .symbolKind i kind,
      .symbolLocation i f r, .scopeLocation i g whole]

/-- A definition is recorded whole, unless one of the two ranges is missing. -/
theorem writes_define (name : QualifiedName) (kind : SymbolKind) (nameAt : Option Cursor)
    (c : Cursor) :
    Writes x file (define name kind nameAt c)
      (fun i entries => ∃ r whole u v w z, rangeOf nameAt = .ok r ∧ c.range = .ok whole ∧
        entries = [⟨.symbol name.stored, i⟩, ⟨.definitionKind i .explicit, u⟩,
          ⟨.symbolKind i kind, v⟩, ⟨.symbolLocation i file r, w⟩, ⟨.scopeLocation i file whole, z⟩])
      fun _ => ∀ r whole, rangeOf nameAt = .ok r → c.range ≠ .ok whole := by
  refine .symbolBind (fun _ => rfl) fun i => .noteBind rfl fun u => .noteBind rfl fun v =>
    .liftBind (fun e he r _ hr => ?_) fun r hr => .noteBind rfl fun w =>
    .liftBind (fun e he _ whole _ hwhole => ?_) fun whole hwhole => .noteBind rfl fun z =>
    .pure ⟨r, whole, u, v, w, z, hr, hwhole, rfl⟩
  · cases he.symm.trans hr
  · cases he.symm.trans hwhole

/-- The calls for a string literal. -/
def StringCalls (c : Cursor) (xs : List Call) : Prop :=
  ∃ r file, c.range = .ok r ∧ xs = if r.spansLines then [.atomicRange file r] else []

theorem writes_visitString (c : Cursor) :
    Writes x file (visitString c) (fun _ entries => StringCalls c (entries.map LogEntry.call))
      (· = []) := by
  refine .liftBind (fun _ _ => rfl) fun r hr => ?_
  split
  · rename_i spans
    exact .note rfl fun v => ⟨r, file, hr, by rw [if_pos spans]; rfl⟩
  · rename_i spans
    exact .pure ⟨r, file, hr, by rw [if_neg spans]; rfl⟩

/-- The message about a token of some type that fits nowhere. -/
def unexpectedMessage (type : String) : Value :=
  .text ("Unexpected token of type \"" ++ type ++ "\" encountered.")

/-- The calls for a token that fits nowhere. -/
def ErrorCalls (c : Cursor) (xs : List Call) : Prop :=
  ∃ r type file, c.range = .ok r ∧ c.tree.unexpected = .ok type ∧
    xs = [.error (unexpectedMessage type) (.flag false) file r]

theorem writes_visitErrorToken (c : Cursor) :
    Writes x file (visitErrorToken c) (fun _ entries => ErrorCalls c (entries.map LogEntry.call))
      (· = []) :=
  .liftBind (fun _ _ => rfl) fun type htype => .liftBind (fun _ _ => rfl) fun r hr =>
    .note rfl fun _ => ⟨r, type, file, hr, htype, rfl⟩

end Both

theorem adds_beginListing (verbose : Bool) (d : Cursor) (s : Trace Client) :
    Outcome (fun _ t => Adds s t []) (fun t => Adds s t []) (beginListing verbose d s) := by
  have same : ∀ {t : Trace Client}, t.contexts = s.contexts → t.recorder = s.recorder →
      Adds s t [] := fun contexts recorder =>
    ⟨contexts, by rw [recorder], by rw [Trace.calls, recorder, List.append_nil]; rfl⟩
  cases verbose with
  | false => exact .refl s
  | true => exact Outcome.getBind (Outcome.liftBind (.refl s) fun r _ => same rfl rfl)

theorem adds_endListing (verbose : Bool) (s : Trace Client) :
    Outcome (fun _ t => Adds s t []) (fun t => Adds s t []) (endListing verbose s) := by
  cases verbose with
  | false => exact .refl s
  | true => exact ⟨rfl, rfl, (List.append_nil _).symm⟩

end CodeIndex
