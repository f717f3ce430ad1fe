import CodeIndex.Proofs.CallLog
import CodeIndex.Proofs.ListingLines
import CodeIndex.Proofs.PlannedRuns

/-!
# The database and the listing

An indexer may report to the database or to a listing. The database gives out a new identifier for
everything that is recorded, while a listing has one for things that are the same; the indexer only
passes them on, so it does the same in both cases. In the end the log of the database has the same
lines as the listing has.

`Mirrors` is what holds between a client of the database and a listing all the time: the log has, up
to the order, the lines of the listing. Two identifiers correspond to each other if they are those
of symbols or files with the same name. That makes the two recorders a `Bond`, and every run keeps
it.
-/

namespace CodeIndex

variable {base : List LogEntry} {c : Client} {l l' : Listing} {call : Call}

namespace Client

/-- The client after a call of the database. -/
def logged (c : Client) (call : Call) : Client := { c with database := c.database.after call }

/-- What was logged after `base`. -/
def since (c : Client) (base : List LogEntry) : List LogEntry :=
  c.database.log.toList.drop base.length

theorem log_logged (c : Client) (call : Call) : (c.logged call).database.log.toList =
    c.database.log.toList ++ [⟨call, c.database.answer call⟩] := by
  simp [logged, Database.after]

theorem since_self (c : Client) : c.since c.database.log.toList = [] := List.drop_length

theorem since_logged (kept : base <+: c.database.log.toList) (call : Call) :
    (c.logged call).since base = c.since base ++ [⟨call, c.database.answer call⟩] := by
  rw [since, log_logged, List.drop_append_of_le_length kept.length_le]
  rfl

end Client

namespace Database

/-- The database gives out identifiers of its own. All other answers may be fixed beforehand. -/
def IssuesIds (d : Database) : Prop :=
  ∀ log call, call.issuesId = true → d.fixed log call = none

theorem IssuesIds.answer_eq {d : Database} (own : d.IssuesIds) (issues : call.issuesId = true) :
    d.answer call = .number (d.lastId + 1) := by
  simp [answer, own d.log call issues, ownAnswer, issues]

end Database

/-- The log of the client since `base` has the lines of the listing. -/
structure Mirrors (base : List LogEntry) (c : Client) (l : Listing) : Prop where
  own : c.database.IssuesIds
  kept : base <+: c.database.log.toList
  /-- Identifiers are not given out twice. -/
  issued : ∀ e ∈ c.since base, e.call.issuesId = true →
    ∃ i ≤ c.database.lastId, e.answer = .number i
  orderly : l.Orderly
  placed : l.AllPlaced
  lines : ∀ h, (Log.linesUnder (c.since base) h).Perm ((l.lines.under h).map some)

/-- The identifiers are those of symbols or files with the same name. -/
def SameName (base : List LogEntry) (c : Client) (l : Listing) (v w : Value) : Prop :=
  ∃ name, Log.displayName? (c.since base) v = some name ∧ l.Names w name

namespace Mirrors

variable (mirrors : Mirrors base c l)
include mirrors

theorem told (h : Heading) : none ∉ Log.linesUnder (c.since base) h := by
  intro missing
  simpa using (mirrors.lines h).subset missing

/-- An identifier that is given out now stands for the call that it answers. -/
theorem issuer?_logged (call : Call) (issues : call.issuesId = true) :
    Log.issuer? ((c.logged call).since base) (c.database.answer call) = some call := by
  rw [Client.since_logged mirrors.kept]
  refine Log.issuer?_new (e := ⟨call, c.database.answer call⟩) issues fun e he issues' same => ?_
  obtain ⟨i, old, answer⟩ := mirrors.issued e he issues'
  rw [answer, mirrors.own.answer_eq issues] at same
  have : i = c.database.lastId + 1 := Value.number.inj same
  omega

/-- A call of the database on the one side and what the listing does on the other, with the same
lines more on both sides. -/
theorem logged {added : Heading → List String} (grows : l.Grows l' added)
    (reads : ∀ h, call.linesUnder ((c.logged call).since base) h = (added h).map some) :
    Mirrors base (c.logged call) l' where
  own := mirrors.own
  kept := by
    rw [Client.log_logged]
    exact mirrors.kept.trans (List.prefix_append _ _)
  issued e he issues := by
    rw [Client.since_logged mirrors.kept] at he
    have last : c.database.lastId ≤ (c.logged call).database.lastId := by
      simp only [Client.logged, Database.after]
      split <;> omega
    rcases List.mem_append.mp he with he | he
    · obtain ⟨i, old, answer⟩ := mirrors.issued e he issues
      exact ⟨i, Int.le_trans old last, answer⟩
    · obtain rfl := List.mem_singleton.mp he
      refine ⟨c.database.lastId + 1, ?_, mirrors.own.answer_eq issues⟩
      have uses : c.database.usesId call = true := by
        simpa [Database.usesId, mirrors.own _ _ issues] using issues
      simp [Client.logged, Database.after, uses]
  orderly := grows.orderly
  placed := grows.placed mirrors.placed
  lines h := by
    have more := reads h
    rw [Client.since_logged mirrors.kept] at more ⊢
    rw [Log.linesUnder_append (mirrors.told h), more]
    refine ((mirrors.lines h).append_right _).trans ?_
    rw [← List.map_append]
    exact ((grows.lines h).map some).symm

end Mirrors

/-! ### Steps -/

/-- A call that belongs under no heading adds no line. -/
theorem reads_nothing (plain : call.heading? = none) (log : List LogEntry) (h : Heading) :
    call.linesUnder log h = ([] : List String).map some := by
  simp [Call.linesUnder, plain]

/-- A call that belongs under a heading adds its line there. -/
theorem reads_only {h₀ : Heading} {line : String} {log : List LogEntry}
    (heading : call.heading? = some h₀) (told : call.line? log = some line) (h : Heading) :
    call.linesUnder log h = (Listing.only h₀ line h).map some := by
  rw [Call.linesUnder, heading, told, Listing.only]
  by_cases same : h₀ = h
  · simp [same]
  · simp [same]

/-- The name of an identifier is known from the log also after a call. -/
theorem displayName?_logged (kept : base <+: c.database.log.toList) {v : Value} {name : String}
    (h : Log.displayName? (c.since base) v = some name) (call : Call) :
    Log.displayName? ((c.logged call).since base) v = some name := by
  rw [Client.since_logged kept]
  exact Log.displayName?_append h

/-- A call on the one side and what the listing does on the other lead to a state in which all
identifiers still correspond to each other. -/
theorem Mirrors.onward (mirrors : Mirrors base c l) {added : Heading → List String}
    (grows : l.Grows l' added)
    (reads : ∀ h, call.linesUnder ((c.logged call).since base) h = (added h).map some) :
    Onward (Mirrors base) (SameName base) c l (c.logged call) l' where
  holds := mirrors.logged grows reads
  link := fun ⟨name, shown, named⟩ =>
    ⟨name, displayName?_logged mirrors.kept shown call, grows.names named⟩

/-- A call that belongs under no heading needs no answer from the listing. -/
theorem Mirrors.onward_of_plain (mirrors : Mirrors base c l) (call : Call)
    (plain : call.heading? = none) :
    Onward (Mirrors base) (SameName base) c l (c.logged call) l :=
  mirrors.onward (.refl mirrors.orderly) (reads_nothing plain _)

theorem Onward.trans {ρ σ : Type} {holds : ρ → σ → Prop} {link : ρ → σ → Value → Value → Prop}
    {r r' r'' : ρ} {t t' t'' : σ} (h : Onward holds link r t r' t')
    (h' : Onward holds link r' t' r'' t'') : Onward holds link r t r'' t'' :=
  ⟨h'.holds, fun hl => h'.link (h.link hl)⟩

/-- A symbol is recorded on both sides, and its identifiers correspond to each other. -/
theorem Mirrors.symbol (mirrors : Mirrors base c l) (name : QualifiedName) :
    Onward (Mirrors base) (SameName base) c l (c.logged (.symbol name.stored)) (l.addNamed name).2 ∧
      SameName base (c.logged (.symbol name.stored)) (l.addNamed name).2
        (c.database.answer (.symbol name.stored)) (.number (l.addNamed name).1) := by
  obtain ⟨grows, named⟩ := Listing.grows_addNamed mirrors.orderly name
  refine ⟨mirrors.onward grows (reads_nothing rfl _), name.display, ?_, named⟩
  rw [Log.displayName?, mirrors.issuer?_logged _ rfl]
  simp [Call.display?, QualifiedName.ofStored?_stored]

/-- A reference and its place are recorded on both sides. -/
theorem Mirrors.refer (mirrors : Mirrors base c l) {context context' target target' : Value}
    {kind : ReferenceKind} (sameContext : SameName base c l context context')
    (sameTarget : SameName base c l target target') (numbered : kind.Numbered) {i : Int}
    (h : l.addReference context' target' kind = (i, l')) (range : Extent) :
    let v := c.database.answer (.reference context target kind)
    Onward (Mirrors base) (SameName base) c l
      ((c.logged (.reference context target kind)).logged (.referenceLocation v c.file range))
      (l'.placeReference (.number i) range) := by
  intro v
  obtain ⟨contextName, hc, hc'⟩ := sameContext
  obtain ⟨targetName, ht, ht'⟩ := sameTarget
  have first := mirrors.onward_of_plain (.reference context target kind) rfl
  have issuer := mirrors.issuer?_logged (.reference context target kind) rfl
  have known := displayName?_logged mirrors.kept hc (.reference context target kind)
  have known' := displayName?_logged mirrors.kept ht (.reference context target kind)
  have grows := Listing.grows_refer mirrors.orderly hc' ht' numbered h range
  refine first.trans (first.holds.onward grows (reads_only rfl ?_))
  rw [Client.since_logged first.holds.kept]
  exact Call.line?_append (Call.line?_referenceLocation issuer known known')

/-- A reference to something unknown is recorded on both sides. -/
theorem Mirrors.referToUnsolved (mirrors : Mirrors base c l) {context context' : Value}
    {kind : ReferenceKind} (sameContext : SameName base c l context context')
    (numbered : kind.Numbered) {i j : Int} {l₁ l₂ : Listing} (hi : l.addNamed .unsolved = (i, l₁))
    (hj : l₁.addReference context' (.number i) kind = (j, l₂)) (range : Extent) :
    Onward (Mirrors base) (SameName base) c l
      (c.logged (.unsolvedReference context kind c.file range))
      (l₂.placeReference (.number j) range) := by
  obtain ⟨contextName, hc, hc'⟩ := sameContext
  obtain ⟨named, target⟩ := Listing.grows_addNamed mirrors.orderly .unsolved
  rw [hi] at named target
  have grows := Listing.grows_refer named.orderly (named.names hc') target numbered hj range
  refine mirrors.onward (named.trans grows) (reads_only rfl ?_)
  exact Call.line?_unsolvedReference (displayName?_logged mirrors.kept hc _)

/-- A local variable and its place are recorded on both sides. -/
theorem Mirrors.useLocal (mirrors : Mirrors base c l) {name : String} (nonempty : name ≠ "")
    {i : Int} (h : l.addLocal name = (i, l')) (range : Extent) :
    let v := c.database.answer (.localSymbol name)
    Onward (Mirrors base) (SameName base) c l
      ((c.logged (.localSymbol name)).logged (.localLocation v c.file range))
      (l'.placeLocal (.number i) range) := by
  intro v
  have first := mirrors.onward_of_plain (.localSymbol name) rfl
  have issuer := mirrors.issuer?_logged (.localSymbol name) rfl
  have grows := Listing.grows_useLocal mirrors.orderly nonempty h range
  refine first.trans (first.holds.onward grows (reads_only rfl ?_))
  rw [Client.since_logged first.holds.kept]
  exact Call.line?_append (Call.line?_localLocation issuer)

/-- A client of the database and a listing keep step with each other, as long as everything that is
recorded has a name. -/
def Bond.mirror (base : List LogEntry) : Bond Client Listing where
  holds := Mirrors base
  link := SameName base
  nameless := False
  record {c l x x'} mirrors paired named := by
    cases paired with
    | symbol name =>
      obtain ⟨onward, same⟩ := mirrors.symbol name
      exact ⟨onward, fun _ => same⟩
    | namelessMember owner => exact (named rfl).elim
    | definitionKind _ kind | symbolKind _ kind | symbolLocation _ range | scopeLocation _ range =>
      refine ⟨mirrors.onward (Listing.grows_changeSymbol mirrors.orderly _ fun _ => ⟨rfl, rfl⟩)
        (reads_nothing rfl _), ?_⟩
      simp [Recording.givesSymbol]
    | qualifierLocation same range =>
      obtain ⟨name, shown, hname⟩ := same
      refine ⟨mirrors.onward (Listing.grows_placeQualifier mirrors.orderly hname range)
        (reads_only rfl ?_), by simp [Recording.givesSymbol]⟩
      exact Call.line?_qualifierLocation (displayName?_logged mirrors.kept shown _)
    | unsolvedReference same numbered range =>
      exact ⟨mirrors.referToUnsolved same numbered rfl rfl range, by simp [Recording.givesSymbol]⟩
    | atomicRange range =>
      exact ⟨mirrors.onward (Listing.grows_atomicRange mirrors.orderly range) (reads_only rfl rfl),
        by simp [Recording.givesSymbol]⟩
    | error message fatal range =>
      exact ⟨mirrors.onward (Listing.grows_error mirrors.orderly message fatal.holds range)
        (reads_only rfl rfl), by simp [Recording.givesSymbol]⟩
  refer range mirrors sameContext sameTarget numbered :=
    mirrors.refer sameContext sameTarget numbered rfl range
  useLocal range mirrors nonempty := mirrors.useLocal nonempty rfl range

/-! ### The beginning of a run -/

open Indexing

/-- The module is recorded and entered on both sides. -/
theorem lockstep_startModule {ρ σ : Type} [Recorder ρ] [Recorder σ] {B : Bond ρ σ}
    (name : Option QualifiedName) {s : Trace ρ} {t : Trace σ} (related : B.Related s t) :
    Lockstep (fun _ s' _ t' => B.Related s' t') B.Related (startModule name s)
      (startModule name t) := by
  cases name with
  | none => exact related
  | some name =>
    have recorded := (Bond.Agree.symbol name : B.Agree [] _ _ B.link) s t related (by simp)
    refine Lockstep.bind (recorded.mono ?_ fun _ _ h => h.related)
    rintro v s₁ w t₁ ⟨goes, link⟩
    have known : (v, w) ∈ [(v, w)] := List.mem_singleton.mpr rfl
    have defined : B.Agree [(v, w)] (note _) (note _) := .note (.definitionKind known .explicit) rfl
    have described : B.Agree [(v, w)] (note _) (note _) :=
      .note (.symbolKind known .moduleSymbol) rfl
    refine Lockstep.bind ((defined s₁ t₁ goes.related (by simpa using link)).mono ?_
      fun _ _ h => h.related)
    rintro _ s₂ _ t₂ ⟨goes₂, -⟩
    refine Lockstep.bind ((described s₂ t₂ goes₂.related (by simpa using goes₂.link link)).mono ?_
      fun _ _ h => h.related)
    rintro _ s₃ _ t₃ ⟨goes₃, -⟩
    exact ⟨goes₃.related.holds, .cons ⟨rfl, goes₃.link (goes₂.link link)⟩ goes₃.related.contexts,
      goes₃.related.kinds⟩

theorem slashed_of_plain {path : String} (plain : '\\' ∉ path.toList) :
    Client.slashed path = path := by
  have same : path.toList.map (fun c => if c = '\\' then '/' else c) = path.toList := by
    conv_rhs => rw [← List.map_id path.toList]
    exact List.map_congr_left fun d hd => if_neg fun h : d = '\\' => plain (h ▸ hd)
  rw [Client.slashed, same, String.ofList_toList]

/-- A new listing mirrors what is logged from now on. -/
theorem mirrors_fresh (own : c.database.IssuesIds) : Mirrors c.database.log.toList c {} where
  own := own
  kept := List.prefix_rfl
  issued e he := by
    rw [Client.since_self] at he
    cases he
  orderly := Listing.orderly_empty
  placed e he := by cases he
  lines h := by
    rw [Client.since_self]
    cases h <;> exact .refl _

/-- The file is recorded and entered on both sides. -/
theorem lockstep_startFile {source : Source} (own : c.database.IssuesIds)
    (counted : 0 ≤ c.database.lastId) (plain : '\\' ∉ source.path.toList)
    (noBrace : source.path.toList.head? ≠ some '\x7b') :
    Lockstep (fun _ s _ t => (Bond.mirror c.database.log.toList).Related s t)
      (Bond.mirror c.database.log.toList).Related (startFile source c.fresh)
      (startFile source { recorder := ({} : Listing) }) := by
  let call : Call := .file (Client.slashed source.path)
  let id := c.database.answer call
  have number : id = .number (c.database.lastId + 1) := own.answer_eq rfl
  have nonzero : id.number? ≠ some 0 := by
    rw [number]
    simp only [Value.number?, ne_eq, Option.some.injEq]
    omega
  let c₁ : Client := { c.logged call with file := id }
  let c₂ : Client := (c₁.logged (.fileLanguage id language)).logged (.fileLanguage id language)
  have client : startFile source c.fresh =
      .ok () { recorder := c₂, contexts := [fileContext source.path id] } := by
    unfold startFile
    change (if id.number? = some 0 then _ else _ : Indexing Client Unit) _ = _
    rw [if_neg nonzero]
    rfl
  obtain ⟨grows, named⟩ := Listing.grows_addFile Listing.orderly_empty noBrace
  have recorded : Onward _ (SameName _) c {} (c.logged call) _ :=
    (mirrors_fresh own).onward grows (reads_nothing rfl _)
  have fromFile : Mirrors c.database.log.toList c₁ (Listing.addFile {} source.path).2 :=
    ⟨recorded.holds.own, recorded.holds.kept, recorded.holds.issued, recorded.holds.orderly,
      recorded.holds.placed, recorded.holds.lines⟩
  have told := fromFile.onward_of_plain (.fileLanguage id language) rfl
  have toldAgain := told.trans (told.holds.onward_of_plain (.fileLanguage id language) rfl)
  have same : SameName c.database.log.toList c₁ (Listing.addFile {} source.path).2 id
      (.number (Listing.addFile {} source.path).1) := by
    refine ⟨source.path, ?_, named⟩
    have issuer := (mirrors_fresh own).issuer?_logged call rfl
    change (Log.issuer? ((c.logged call).since c.database.log.toList) id).bind Call.display? = _
    rw [issuer]
    exact congrArg some (slashed_of_plain plain)
  rw [client]
  exact ⟨toldAgain.holds, .cons ⟨rfl, toldAgain.link same⟩ .nil, rfl⟩

/-- So a run that reports to the database and one that reports to a listing begin alike. -/
theorem lockstep_start {source : Source} (name : Except Fault (Option QualifiedName))
    (own : c.database.IssuesIds) (counted : 0 ≤ c.database.lastId)
    (plain : '\\' ∉ source.path.toList) (noBrace : source.path.toList.head? ≠ some '\x7b') :
    Lockstep (fun _ s _ t => (Bond.mirror c.database.log.toList).Related s t)
      (Bond.mirror c.database.log.toList).Related (start source name c.fresh)
      (start source name { recorder := ({} : Listing) }) := by
  rw [start_eq, start_eq]
  refine Lockstep.bind ((lockstep_startFile own counted plain noBrace).mono ?_ fun _ _ h => h)
  intro _ s _ t related
  cases name with
  | error e => exact ⟨rfl, related⟩
  | ok name => exact lockstep_startModule name related

/-! ### Sessions -/

namespace Session

/-- Carrying out a plan for a database and for a new listing. -/
theorem Plan.shows_log {p : Plan} (verbose : Bool) (tree : Tree) {s : Session Client}
    {t : Session Listing} (own : s.recorder.database.IssuesIds)
    (counted : 0 ≤ s.recorder.database.lastId) (new : t.recorder = {})
    (plain : '\\' ∉ p.source.path.toList) (noBrace : p.source.path.toList.head? ≠ some '\x7b')
    (named : p.NamesModules False) :
    let recorded := carryOut (p.index verbose tree) s
    let listed := carryOut (p.index verbose tree) t
    ending listed = ending recorded ∧
      ∃ run, (finalState recorded).recorder.database.log.toList =
          s.recorder.database.log.toList ++ run ∧
        ∀ h, (Log.linesUnder run h).Perm
          (((finalState listed).recorder.read.1.under h).map some) := by
  intro recorded listed
  have begun := lockstep_start p.moduleName own counted plain noBrace
  have lockstep := lockstep_index named (b := verbose) (t := tree) (.inl rfl) begun
  have mirrors := lockstep.final.holds
  have final : (finalState listed).recorder =
      (finalState (p.index verbose tree { recorder := ({} : Listing) })).recorder := by
    rw [finalState_carryOut, new]
    rfl
  refine ⟨?_, (finalState recorded).recorder.since s.recorder.database.log.toList, ?_, fun h => ?_⟩
  · rw [ending_carryOut, ending_carryOut, new]
    exact lockstep.ending
  · rw [finalState_carryOut]
    exact (List.prefix_iff_eq_append.mp mirrors.kept).symm
  · rw [final, Listing.read_of_allPlaced mirrors.placed, finalState_carryOut]
    exact mirrors.lines h

/-- A listing shows what the database records. A session that reports to a database with identifiers
of its own and one that reports to a new listing end alike, and under every heading the lines of the
listing are those of the calls that the database has logged. The path of the source has to be one
that is recorded as it is and taken for no stored name, and every module has to have a name. -/
theorem listing_shows_log (w : World) (method : Method) (environment : Option String)
    (verbose : Bool) (subject : Subject) (s : Session Client) (t : Session Listing)
    (own : s.recorder.database.IssuesIds) (counted : 0 ≤ s.recorder.database.lastId)
    (new : t.recorder = {}) (plain : '\\' ∉ (subject.location w).toList)
    (noBrace : (subject.location w).toList.head? ≠ some '\x7b')
    (named : ∀ p, subject.plan w method environment = .ok p → p.NamesModules False) :
    let recorded := subject.index w method environment verbose s
    let listed := subject.index w method environment verbose t
    ending listed = ending recorded ∧
      ∃ run, (finalState recorded).recorder.database.log.toList =
          s.recorder.database.log.toList ++ run ∧
        ∀ h, (Log.linesUnder run h).Perm
          (((finalState listed).recorder.read.1.under h).map some) := by
  intro recorded listed
  obtain ⟨u, hu, carried⟩ := Subject.index_of_plan w method environment verbose subject s
  obtain ⟨v, hv, carried'⟩ := Subject.index_of_plan w method environment verbose subject t
  rw [show recorded = _ from carried, show listed = _ from carried']
  cases planned : subject.plan w method environment with
  | error e =>
    refine ⟨rfl, [], ?_, fun h => ?_⟩
    · change u.recorder.database.log.toList = _
      rw [hu.recorder, List.append_nil]
    · change (Log.linesUnder [] h).Perm ((v.recorder.read.1.under h).map some)
      rw [hv.recorder, new]
      cases h <;> exact .refl _
  | ok p =>
    have path := (Subject.plan_cases planned).1
    rw [← hu.recorder] at own counted ⊢
    rw [← path] at plain noBrace
    exact Plan.shows_log verbose w.tree own counted (hv.recorder.trans new) plain noBrace
      (named p planned)

/-- A module that is used twice, and of which the resolver may know the name. -/
def moduleUsedTwice (name : Option String) : World :=
  let definition : Definition :=
    { kind := .ok (some "module"), modulePath := .ok (some "/lib/m.py"), name := .ok name }
  { files := ⟨"/w", [], []⟩
    environments := { preferred := .ok ⟨"/env", 3, 7, [], none⟩ }
    tree := .node (.other "file_input") [.tokenAt .name "m" 1 0, .tokenAt .name "m" 2 0]
    resolver := ⟨[(⟨none, ⟨1, 0⟩⟩, .ok [some definition]), (⟨none, ⟨2, 0⟩⟩, .ok [some definition])]⟩
    stubs := "/stubs" }

/-- The session on it that reports to a new database. -/
def moduleRecorded (name : Option String) : EStateM.Result Fault (Session Client) Unit :=
  (Subject.snippet "" (some ["/lib"])).index (moduleUsedTwice name) .semantic none false
    { recorder := { database := {} } }

/-- The session on it that reports to a new listing. -/
def moduleListed (name : Option String) : EStateM.Result Fault (Session Listing) Unit :=
  (Subject.snippet "" (some ["/lib"])).index (moduleUsedTwice name) .semantic none false
    { recorder := {} }

/-- The two uses are two references in the database and one in the listing, and two lines in
both. -/
theorem module_used_twice_in_two_lines :
    (finalState (moduleListed (some "m"))).recorder.references.length = 1 ∧
      (finalState (moduleListed (some "m"))).recorder.read.1.references =
        ["USAGE: virtual_file -> m at [1:1|1:1]", "USAGE: virtual_file -> m at [2:1|2:1]"] ∧
      ∀ h, (Log.linesUnder
        (finalState (moduleRecorded (some "m"))).recorder.database.log.toList h).Perm
          (((finalState (moduleListed (some "m"))).recorder.read.1.under h).map some) := by
  have known : ∀ d ∈ (moduleUsedTwice (some "m")).resolver.known,
      d.kind = .ok (some "module") → d.name ≠ .ok none := by
    simp [moduleUsedTwice, Resolver.known]
  have virtual : (Subject.snippet "" (some ["/lib"])).location (moduleUsedTwice (some "m")) =
      "virtual_file.py" := rfl
  have same := listing_shows_log (moduleUsedTwice (some "m")) .semantic none false
    (.snippet "" (some ["/lib"])) { recorder := { database := {} } } { recorder := {} }
    (fun _ _ _ => rfl) (by decide) rfl (by rw [virtual]; decide) (by rw [virtual]; decide)
    fun p h => Subject.namesModules_of_plan h known
  obtain ⟨-, run, log, lines⟩ := same
  refine ⟨by decide +kernel, by decide +kernel, fun h => ?_⟩
  rw [moduleRecorded, moduleListed, log]
  exact lines h

/-- Without the name, the database refers to symbols that have no display name, and the listing to
something unknown. -/
theorem nameless_module_differs :
    Log.linesUnder (finalState (moduleRecorded none)).recorder.database.log.toList .references =
        [none, none] ∧
      (finalState (moduleListed none)).recorder.read.1.references =
        ["USAGE: virtual_file -> unsolved symbol at [1:1|1:1]",
          "USAGE: virtual_file -> UNKNOWN SYMBOL at [2:1|2:1]"] := by
  decide +kernel

end Session

end CodeIndex
