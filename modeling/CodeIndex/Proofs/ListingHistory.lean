import CodeIndex.Proofs.ListingLines
import Mathlib.Data.List.Find

/-!
# A listing shows what was recorded

A listing keeps tables and joins them when it is read. This module says what it shows without them:
from the history alone, that is from what was recorded and which identifiers were given back for it.
A symbol or file has one line, where it came up first. A reference has a line for each place that
was recorded under its identifier later on, or one line without a place. A local variable has a line
for each of its places, and so has a qualifier. An identifier is shown by the name of what it was
given out for.

The tables are what is left of the history at any time, so one recording changes them just as it
changes the history.

## What is proved

* `firsts_append` — what comes up first when one more recording is made.
* `Tells.record` — one recording keeps the tables in line with the history.
* `listing_shows_history` — so the lines of a listing are those of its history.
* `Tells.refuses_nameless` — what has no name is refused when it comes up first.
* `file_hidden_behind_symbol` — a file is not shown if its path is the stored form of a name.
-/

namespace CodeIndex

variable {α κ : Type}

/-! ### Histories -/

/-- A recording and what was given back for it. -/
abbrev Note := Recording × Value

/-- A symbol or a file. -/
inductive Thing where
  /-- A symbol by its name. -/
  | symbol (name : QualifiedName)
  /-- A file by its path. -/
  | file (path : String)
  deriving DecidableEq

namespace Thing

/-- What a listing knows it by. -/
def key : Thing → String
  | symbol name => name.stored
  | file path => path

/-- Its display name. -/
def name : Thing → String
  | symbol name => name.display
  | file path => path

/-- The word for how it is defined, if that is known from the beginning. -/
def definition? : Thing → Option String
  | symbol _ => none
  | file _ => some "INDEXED"

/-- The word for what it is, if that is known from the beginning. -/
def kind? : Thing → Option String
  | symbol _ => none
  | file _ => some "FILE"

end Thing

/-- A reference as it is recorded. -/
structure Link where
  /-- What refers. -/
  context : Value
  /-- What is referred to. -/
  target : Value
  /-- The kind of reference. -/
  kind : ReferenceKind

/-- The written form of a reference. -/
def Link.written (x : Link) : String := writtenReference x.context x.target x.kind

namespace Recording

/-- The symbol or file that is recorded. -/
def thing? : Recording → Option Thing
  | .symbol name => some (.symbol name)
  | .file path => some (.file path)
  | _ => none

/-- The reference that is recorded. -/
def link? : Recording → Option Link
  | .reference context target kind => some ⟨context, target, kind⟩
  | _ => none

/-- The local variable that is recorded. -/
def localName? : Recording → Option String
  | .localSymbol name => some name
  | _ => none

/-- The symbol that is recorded as a qualifier. -/
def qualifier? : Recording → Option Value
  | .qualifierLocation i _ => some i
  | _ => none

/-- The word that is recorded for how a symbol is defined. -/
def definition? : Recording → Option (Value × String)
  | .definitionKind i kind => some (i, Listing.definitionWord kind)
  | _ => none

/-- The word that is recorded for what a symbol is. -/
def kind? : Recording → Option (Value × String)
  | .symbolKind i kind => some (i, kind.label)
  | _ => none

/-- The place that is recorded for a symbol. -/
def place? : Recording → Option (Value × Extent)
  | .symbolLocation i range => some (i, range)
  | _ => none

/-- The range that is recorded for the definition of a symbol. -/
def scope? : Recording → Option (Value × Extent)
  | .scopeLocation i range => some (i, range)
  | _ => none

/-- The range that is recorded for the signature of a symbol. -/
def signature? : Recording → Option (Value × Extent)
  | .signatureLocation i range => some (i, range)
  | _ => none

/-- The place that is recorded for a reference. -/
def referencePlace? : Recording → Option (Value × Extent)
  | .referenceLocation i range => some (i, range)
  | _ => none

/-- The place that is recorded for a local variable. -/
def localPlace? : Recording → Option (Value × Extent)
  | .localLocation i range => some (i, range)
  | _ => none

/-- The place that is recorded for a qualifier. -/
def qualifierPlace? : Recording → Option (Value × Extent)
  | .qualifierLocation i range => some (i, range)
  | _ => none

/-- The stretch of text that is recorded. -/
def atomicRange? : Recording → Option Extent
  | .atomicRange range => some range
  | _ => none

/-- The error that is recorded. -/
def error? : Recording → Option ErrorEntry
  | .error (.text message) fatal range => some ⟨message, fatal.holds, range⟩
  | _ => none

/-- The key under which a listing keeps the symbol or file that is recorded. -/
def key? : Recording → Option String
  | .file path => some path
  | .symbol name => some name.stored
  | .namelessMember owner => some owner.storedNameless
  | .unsolvedReference _ _ _ => some QualifiedName.unsolved.stored
  | _ => none

end Recording

/-- The path of no file is the key of something else that is recorded. -/
def KeysApart (rs : List Recording) : Prop :=
  ∀ path, .file path ∈ rs → ∀ r ∈ rs, r.key? = some path → r = .file path

theorem KeysApart.of_subset {rs rs' : List Recording} (apart : KeysApart rs') (sub : rs ⊆ rs') :
    KeysApart rs :=
  fun path file r hr => apart path (sub file) r (sub hr)

namespace Thing

variable {rs rs' : List Recording} {x y : Thing}

/-- The symbol or file is recorded, perhaps as a part of what is recorded. -/
def RecordedBy (rs : List Recording) : Thing → Prop
  | symbol name => ∃ r ∈ rs, r.key? = some name.stored ∧ ∀ path, r ≠ .file path
  | file path => .file path ∈ rs

theorem RecordedBy.mono (h : x.RecordedBy rs) (sub : rs ⊆ rs') : x.RecordedBy rs' := by
  cases x with
  | symbol name =>
    obtain ⟨r, hr, own⟩ := h
    exact ⟨r, sub hr, own⟩
  | file path => exact sub h

theorem key_inj (apart : KeysApart rs) (hx : x.RecordedBy rs) (hy : y.RecordedBy rs)
    (h : x.key = y.key) : x = y := by
  have other : ∀ {q : QualifiedName} {path : String}, (symbol q).RecordedBy rs →
      (file path).RecordedBy rs → q.stored ≠ path := by
    rintro q _ ⟨r, hr, own, noFile⟩ hfile rfl
    exact noFile _ (apart _ hfile r hr own)
  cases x with
  | symbol q =>
    cases y with
    | symbol q' =>
      have same : some q = some q' := by
        rw [← q.ofStored?_stored, show q.stored = q'.stored from h, q'.ofStored?_stored]
      exact congrArg symbol (Option.some.inj same)
    | file path => exact absurd h (other hx hy)
  | file path =>
    cases y with
    | symbol q => exact absurd h.symm (other hy hx)
    | file path' => exact congrArg file h

/-- The key of what has no name is no other key. -/
theorem key_ne_storedNameless (apart : KeysApart rs) (hx : x.RecordedBy rs) {q : QualifiedName}
    (hq : .namelessMember q ∈ rs) : x.key ≠ q.storedNameless := by
  intro h
  cases x with
  | symbol name =>
    have read := QualifiedName.ofStored?_storedNameless q
    rw [← show name.stored = q.storedNameless from h, QualifiedName.ofStored?_stored] at read
    cases read
  | file path => cases apart path hx _ hq (congrArg some h.symm)

end Thing

/-- What a recording of a kind says about the identifier `v`, each time that one is made. -/
def about (v : Value) (topic : Recording → Option (Value × α)) (h : List Note) : List α :=
  h.filterMap fun n => (topic n.1).bind fun p => if p.1.plain = v.plain then some p.2 else none

/-- What the last such recording says. -/
def latest (v : Value) (topic : Recording → Option (Value × α)) (h : List Note) : Option α :=
  (about v topic h).getLast?

/-- Something that came up for the first time. -/
structure First (α : Type) where
  /-- What came up. -/
  what : α
  /-- What was given back for it. -/
  answer : Value
  /-- What was recorded after it. -/
  later : List Note

/-- The things of a kind in a history, each where it came up first. Things with the same key are the
same. -/
def firsts [DecidableEq κ] (topic : Recording → Option α) (key : α → κ) :
    List Note → List (First α)
  | [] => []
  | (r, v) :: h =>
    match topic r with
    | none => firsts topic key h
    | some a => ⟨a, v, h⟩ :: (firsts topic key h).filter fun f => key f.what ≠ key a

/-! ### What the history says -/

namespace History

/-- The name of what the identifier was given out for. -/
def nameOf (h : List Note) (i : Value) : String :=
  match (firsts Recording.thing? id h).find? fun f => f.answer.plain = i.plain with
  | some f => f.what.name
  | none => "UNKNOWN SYMBOL"

/-- The places at which a reference is shown: those that were recorded for it, or none at all. -/
def showings : List Extent → List (Option Extent)
  | [] => [none]
  | places => places.map some

/-- A range after the words that introduce it, if there is one. -/
def clause (words : String) (range : Option Extent) : String :=
  (range.map fun r => words ++ r.text).getD ""

/-- The lines for a history. -/
def view (h : List Note) : View where
  symbols := (firsts Recording.thing? id h).map fun f =>
    Text.trim (((latest f.answer Recording.definition? f.later).or f.what.definition?).getD
        "NON-INDEXED" ++ " " ++
      ((latest f.answer Recording.kind? f.later).or f.what.kind?).getD "SYMBOL" ++ ": " ++
      f.what.name ++ clause " at " (latest f.answer Recording.place? f.later) ++
      clause " with scope " (latest f.answer Recording.scope? f.later) ++
      clause " with signature " (latest f.answer Recording.signature? f.later))
  localSymbols := (firsts Recording.localName? id h).flatMap fun f =>
    if f.what.isEmpty then []
    else (about f.answer Recording.localPlace? f.later).map fun r => f.what ++ " at " ++ r.text
  references := (firsts Recording.link? Link.written h).flatMap fun f =>
    (showings (about f.answer Recording.referencePlace? f.later)).map fun place =>
      Text.trim (f.what.kind.label ++ ": " ++ nameOf h f.what.context ++ " -> " ++
        nameOf h f.what.target ++ clause " at " place)
  qualifiers := (firsts Recording.qualifier? Value.plain h).flatMap fun f =>
    (about f.what Recording.qualifierPlace? h).map fun r => nameOf h f.what ++ " at " ++ r.text
  atomicRanges := (h.filterMap (·.1.atomicRange?)).map fun r => "ATOMIC SOURCE RANGE: " ++ r.text
  errors := (h.filterMap (·.1.error?)).map fun e =>
    (if e.fatal then "FATAL " else "") ++ "ERROR: \"" ++ e.message ++ "\" at " ++ e.range.text

end History

namespace Listing

/-- What is recorded with a recording, and the listing afterwards. A reference to something unknown
is a symbol that stands for it, a reference to that symbol, and a place of this reference. -/
def notes (l : Listing) : Recording → List Note × Listing
  | .unsolvedReference context kind range =>
    let (target, l) := l.addNamed .unsolved
    let (reference, l) := l.addReference context (.number target) kind
    ([(.symbol .unsolved, .number target), (.reference context (.number target) kind,
      .number reference), (.referenceLocation (.number reference) range, .null)],
      l.placeReference (.number reference) range)
  | r => (Operation.record r).perform l

/-- The history of recordings that are made one after the other. -/
def history (l : Listing) : List Recording → List Note
  | [] => []
  | r :: rs => (l.notes r).1 ++ (l.notes r).2.history rs

theorem notes_snd (l : Listing) (r : Recording) :
    (l.notes r).2 = ((Operation.record r).perform l).2 := by
  cases r <;> rfl

end Listing

/-! ### First occurrences -/

section Firsts

variable [DecidableEq κ] {topic : Recording → Option α} {key : α → κ} {h : List Note}

/-- The same with one more recording afterwards. -/
def First.extend (f : First α) (n : Note) : First α := { f with later := f.later ++ [n] }

theorem mem_firsts {f : First α} (hf : f ∈ firsts topic key h) :
    ∃ r, (r, f.answer) ∈ h ∧ topic r = some f.what := by
  induction h with
  | nil => cases hf
  | cons n h ih =>
    obtain ⟨r, v⟩ := n
    have rest : f ∈ firsts topic key h → ∃ r', (r', f.answer) ∈ (r, v) :: h ∧
        topic r' = some f.what := by
      intro hf
      obtain ⟨r', mem, said⟩ := ih hf
      exact ⟨r', List.mem_cons_of_mem _ mem, said⟩
    unfold firsts at hf
    cases said : topic r with
    | none =>
      rw [said] at hf
      exact rest hf
    | some a =>
      rw [said] at hf
      rcases List.mem_cons.mp hf with rfl | hf
      · exact ⟨r, List.mem_cons_self, said⟩
      · exact rest (List.mem_of_mem_filter hf)

theorem exists_first {r : Recording} {v : Value} {a : α} (mem : (r, v) ∈ h)
    (said : topic r = some a) : ∃ f ∈ firsts topic key h, key f.what = key a := by
  induction h with
  | nil => cases mem
  | cons n h ih =>
    obtain ⟨r', v'⟩ := n
    unfold firsts
    rcases List.mem_cons.mp mem with same | mem
    · obtain ⟨rfl, rfl⟩ := Prod.mk.inj same
      rw [said]
      exact ⟨_, List.mem_cons_self, rfl⟩
    · obtain ⟨f, hf, same⟩ := ih mem
      cases said' : topic r' with
      | none => exact ⟨f, hf, same⟩
      | some b =>
        by_cases other : key f.what = key b
        · exact ⟨_, List.mem_cons_self, other.symm.trans same⟩
        · exact ⟨f, List.mem_cons_of_mem _ (List.mem_filter.mpr ⟨hf, by simpa using other⟩), same⟩

/-- What one more recording adds. -/
def fresh (topic : Recording → Option α) (key : α → κ) (h : List Note) (n : Note) :
    List (First α) :=
  match topic n.1 with
  | none => []
  | some a => if (firsts topic key h).any (fun f => key f.what = key a) then [] else [⟨a, n.2, []⟩]

theorem firsts_append (h : List Note) (n : Note) :
    firsts topic key (h ++ [n]) =
      (firsts topic key h).map (·.extend n) ++ fresh topic key h n := by
  induction h with
  | nil =>
    obtain ⟨r, v⟩ := n
    unfold fresh
    cases said : topic r <;> simp [firsts, said]
  | cons m h ih =>
    obtain ⟨r, v⟩ := m
    cases said : topic r with
    | none =>
      have skip : ∀ h', firsts topic key ((r, v) :: h') = firsts topic key h' := by
        intro h'
        rw [firsts, said]
      rw [List.cons_append, skip, ih, fresh, fresh, skip]
    | some b =>
      have cons : ∀ h', firsts topic key ((r, v) :: h') =
          ⟨b, v, h'⟩ :: (firsts topic key h').filter fun f => key f.what ≠ key b := by
        intro h'
        rw [firsts, said]
      rw [List.cons_append, cons, ih, List.filter_append, List.filter_map, cons, List.map_cons,
        List.cons_append]
      refine congrArg₂ List.cons rfl (congrArg₂ (· ++ ·) rfl ?_)
      unfold fresh
      rw [cons]
      cases said' : topic n.1 with
      | none => rfl
      | some a =>
        dsimp only
        by_cases same : key b = key a
        · rw [List.any_cons, decide_eq_true same, Bool.true_or, if_pos rfl]
          split
          · rfl
          · simp [same]
        · have others : ((firsts topic key h).filter fun f => key f.what ≠ key b).any
              (fun f => key f.what = key a) =
              (firsts topic key h).any fun f => key f.what = key a := by
            rw [List.any_filter]
            refine congrArg _ (funext fun f => ?_)
            by_cases hf : key f.what = key a
            · simp [hf, Ne.symm same]
            · simp [hf]
          simp only [List.any_cons, decide_eq_false same, Bool.false_or, others]
          split
          · rfl
          · simp [Ne.symm same]

theorem map_firsts_append {β : Type} (E : First α → β) (h : List Note) (n : Note) :
    (firsts topic key (h ++ [n])).map E =
      (firsts topic key h).map (fun f => E (f.extend n)) ++ (fresh topic key h n).map E := by
  rw [firsts_append, List.map_append, List.map_map]
  rfl

/-- A recording about something else. -/
theorem map_firsts_of_none {β : Type} {E : First α → β} {n : Note} (none : topic n.1 = none)
    (same : ∀ f, E (f.extend n) = E f) :
    (firsts topic key (h ++ [n])).map E = (firsts topic key h).map E := by
  rw [map_firsts_append, fresh, none, List.map_nil, List.append_nil]
  exact List.map_congr_left fun f _ => same f

theorem fresh_of_known {n : Note} {a : α} (told : topic n.1 = some a) {f : First α}
    (hf : f ∈ firsts topic key h) (same : key f.what = key a) : fresh topic key h n = [] := by
  rw [fresh, told]
  exact if_pos (List.any_eq_true.mpr ⟨f, hf, decide_eq_true same⟩)

theorem fresh_of_new {n : Note} {a : α} (told : topic n.1 = some a)
    (new : ∀ f ∈ firsts topic key h, key f.what ≠ key a) :
    fresh topic key h n = [⟨a, n.2, []⟩] := by
  rw [fresh, told]
  refine if_neg fun known => ?_
  obtain ⟨f, hf, same⟩ := List.any_eq_true.mp known
  exact new f hf (of_decide_eq_true same)

/-- Something that comes up is shown if it is new, and what a table says about the others stays. -/
theorem map_firsts_tell {β : Type} {E : First α → β} {n : Note} {a : α} {p : β → Bool}
    (told : topic n.1 = some a) (same : ∀ f, E (f.extend n) = E f)
    (test : ∀ f, p (E f) = decide (key f.what = key a)) :
    (firsts topic key (h ++ [n])).map E =
      if ((firsts topic key h).map E).any p then (firsts topic key h).map E
      else (firsts topic key h).map E ++ [E ⟨a, n.2, []⟩] := by
  rw [map_firsts_append, List.map_congr_left fun f _ => same f]
  split
  · rename_i known
    obtain ⟨e, he, hp⟩ := List.any_eq_true.mp known
    obtain ⟨f, hf, rfl⟩ := List.mem_map.mp he
    rw [test] at hp
    rw [fresh_of_known told hf (of_decide_eq_true hp), List.map_nil, List.append_nil]
  · rename_i unknown
    have new : ∀ f ∈ firsts topic key h, key f.what ≠ key a := fun f hf equal =>
      unknown (List.any_eq_true.mpr ⟨E f, List.mem_map_of_mem hf, (test f).trans
        (decide_eq_true equal)⟩)
    rw [fresh_of_new told new]
    rfl

end Firsts

@[simp] theorem about_append (v : Value) (topic : Recording → Option (Value × α)) (h : List Note)
    (n : Note) : about v topic (h ++ [n]) = about v topic h ++ about v topic [n] :=
  List.filterMap_append

theorem about_of_none {v : Value} {topic : Recording → Option (Value × α)} {n : Note}
    (none : topic n.1 = none) : about v topic [n] = [] := by
  simp [about, none]

theorem about_of_some {v i : Value} {topic : Recording → Option (Value × α)} {n : Note} {a : α}
    (told : topic n.1 = some (i, a)) :
    about v topic [n] = if i.plain = v.plain then [a] else [] := by
  simp only [about, List.filterMap_cons, told, Option.bind_some, List.filterMap_nil]
  split <;> simp_all

theorem latest_append (v : Value) (topic : Recording → Option (Value × α)) (h : List Note)
    (n : Note) : latest v topic (h ++ [n]) =
      ((topic n.1).bind fun p => if p.1.plain = v.plain then some p.2 else none).or
        (latest v topic h) := by
  rw [latest, about_append, List.getLast?_append, latest]
  cases told : topic n.1 with
  | none => rw [about_of_none told]; rfl
  | some p =>
    rw [about_of_some told, Option.bind_some]
    split <;> rfl

/-! ### Tables -/

namespace History

/-- The symbol or file as it is known in the end. -/
def symbolEntry (f : First Thing) : SymbolEntry where
  id := f.answer.number?.getD 0
  name := f.what.name
  definition := (latest f.answer Recording.definition? f.later).or f.what.definition?
  kind := (latest f.answer Recording.kind? f.later).or f.what.kind?
  location := latest f.answer Recording.place? f.later
  scope := latest f.answer Recording.scope? f.later
  signature := latest f.answer Recording.signature? f.later

/-- The reference with its places. -/
def referenceEntry (f : First Link) : ReferenceEntry where
  id := f.answer.number?.getD 0
  context := f.what.context
  target := f.what.target
  kind := f.what.kind
  places := (about f.answer Recording.referencePlace? f.later).map some

/-- The local variable with its places. -/
def localEntry (f : First String) : LocalEntry where
  id := f.answer.number?.getD 0
  name := f.what
  places := about f.answer Recording.localPlace? f.later

/-- The symbols and files of a history. -/
def symbols (h : List Note) : List SymbolEntry := (firsts Recording.thing? id h).map symbolEntry

/-- The references of a history. -/
def references (h : List Note) : List ReferenceEntry :=
  (firsts Recording.link? Link.written h).map referenceEntry

/-- The local variables of a history. -/
def locals (h : List Note) : List LocalEntry :=
  (firsts Recording.localName? id h).map localEntry

/-- The qualifiers of a history. -/
def qualifiers (h : List Note) : List QualifierEntry :=
  (firsts Recording.qualifier? Value.plain h).map fun f =>
    ⟨f.what, about f.what Recording.qualifierPlace? h⟩

end History

/-- The recording is about symbols and files. -/
def Recording.concernsSymbols : Recording → Bool
  | .symbol _ | .file _ | .definitionKind _ _ | .symbolKind _ _ | .symbolLocation _ _
  | .scopeLocation _ _ | .signatureLocation _ _ => true
  | _ => false

/-- What the recording changes in the entry of a symbol, and whose entry that is. -/
def Recording.change? : Recording → Option (Value × (SymbolEntry → SymbolEntry))
  | .definitionKind i kind =>
    some (i, fun e => { e with definition := some (Listing.definitionWord kind) })
  | .symbolKind i kind => some (i, fun e => { e with kind := some kind.label })
  | .symbolLocation i range => some (i, fun e => { e with location := some range })
  | .scopeLocation i range => some (i, fun e => { e with scope := some range })
  | .signatureLocation i range => some (i, fun e => { e with signature := some range })
  | _ => none

/-- The recording is about references. -/
def Recording.concernsReferences : Recording → Bool
  | .reference _ _ _ | .referenceLocation _ _ => true
  | _ => false

/-- The recording is about local variables. -/
def Recording.concernsLocals : Recording → Bool
  | .localSymbol _ | .localLocation _ _ => true
  | _ => false

namespace History

variable {h : List Note} {r : Recording} {v : Value}

theorem symbolEntry_extend (f : First Thing) (none : r.definition? = none ∧ r.kind? = none ∧
    r.place? = none ∧ r.scope? = none ∧ r.signature? = none) :
    symbolEntry (f.extend (r, v)) = symbolEntry f := by
  simp [symbolEntry, First.extend, latest_append, none]

/-- What is recorded about an identifier changes the entry that has it, and says nothing else. -/
theorem symbolEntry_extend_of_change {i : Value} {g : SymbolEntry → SymbolEntry}
    (told : r.change? = some (i, g)) (f : First Thing) :
    symbolEntry (f.extend (r, v)) =
      if i.plain = f.answer.plain then g (symbolEntry f) else symbolEntry f := by
  cases r with
  | definitionKind | symbolKind | symbolLocation | scopeLocation | signatureLocation =>
    obtain ⟨rfl, rfl⟩ := Prod.mk.inj (Option.some.inj told)
    split <;> simp_all [symbolEntry, First.extend, latest_append, Recording.definition?,
      Recording.kind?, Recording.place?, Recording.scope?, Recording.signature?]
  | _ => cases told

theorem referenceEntry_extend (f : First Link) (none : r.referencePlace? = none) :
    referenceEntry (f.extend (r, v)) = referenceEntry f := by
  simp [referenceEntry, First.extend, about_of_none, none]

theorem localEntry_extend (f : First String) (none : r.localPlace? = none) :
    localEntry (f.extend (r, v)) = localEntry f := by
  simp [localEntry, First.extend, about_of_none, none]

theorem symbols_of_other (other : r.concernsSymbols = false) :
    symbols (h ++ [(r, v)]) = symbols h := by
  refine map_firsts_of_none ?_ fun f => symbolEntry_extend f ?_
  · cases r <;> first | rfl | cases other
  · cases r <;> first | exact ⟨rfl, rfl, rfl, rfl, rfl⟩ | cases other

theorem references_of_other (other : r.concernsReferences = false) :
    references (h ++ [(r, v)]) = references h := by
  refine map_firsts_of_none ?_ fun f => referenceEntry_extend f ?_
  · cases r <;> first | rfl | cases other
  · cases r <;> first | rfl | cases other

theorem locals_of_other (other : r.concernsLocals = false) :
    locals (h ++ [(r, v)]) = locals h := by
  refine map_firsts_of_none ?_ fun f => localEntry_extend f ?_
  · cases r <;> first | rfl | cases other
  · cases r <;> first | rfl | cases other

theorem qualifiers_of_other (other : r.qualifier? = none) :
    qualifiers (h ++ [(r, v)]) = qualifiers h := by
  have none : r.qualifierPlace? = none := by
    cases r <;> first | rfl | cases other
  rw [qualifiers, qualifiers, firsts_append, fresh, other, List.append_nil, List.map_map]
  refine List.map_congr_left fun f _ => ?_
  simp [First.extend, about_of_none, none]

end History

/-! ### One recording after the other -/

theorem Value.plain_eq_number {i : Value} {j : Int} :
    i.plain = (Value.number j).plain ↔ some j = i.number? := by
  unfold Value.plain
  cases i <;> simp [Value.number?, eq_comm]

/-- A recording about an identifier changes the entry that has it. -/
theorem map_firsts_change {β : Type} [DecidableEq κ] {topic : Recording → Option α} {key : α → κ}
    {h : List Note} {E : First α → β} {n : Note} {i : Value} {id : β → Int} {g : β → β}
    (none : topic n.1 = none) (numbered : ∀ f ∈ firsts topic key h, ∃ j, f.answer = .number j)
    (own : ∀ f, id (E f) = f.answer.number?.getD 0)
    (changed : ∀ f, E (f.extend n) = if i.plain = f.answer.plain then g (E f) else E f) :
    ((firsts topic key h).map E).map (fun e => if some (id e) = i.number? then g e else e) =
      (firsts topic key (h ++ [n])).map E := by
  rw [map_firsts_append, fresh, none, List.map_nil, List.append_nil, List.map_map]
  refine List.map_congr_left fun f hf => ?_
  obtain ⟨j, hj⟩ := numbered f hf
  have same : i.plain = f.answer.plain ↔ some (id (E f)) = i.number? := by
    rw [own f, hj]
    exact Value.plain_eq_number
  rw [changed, Function.comp]
  exact (if_congr same rfl rfl).symm

/-- The tables of the listing are those of the history of the recordings. -/
structure Tells (rs : List Recording) (h : List Note) (l : Listing) : Prop where
  consistent : l.Consistent
  answered : ∀ n ∈ h, n.1.isAnsweredById = true → ∃ i, n.2 = .number i
  /-- What was recorded by a key has got the identifier that was given back. -/
  recorded : ∀ n ∈ h, ∀ x, n.1.thing? = some x →
    x.RecordedBy rs ∧ ∃ i, n.2 = .number i ∧ (x.key, i) ∈ l.keys
  /-- Keys are those of symbols and files, or of something that has no name. -/
  keys : ∀ text i, (text, i) ∈ l.keys →
    (∃ n ∈ h, ∃ x, n.1.thing? = some x ∧ text = x.key) ∨
      ∃ q, .namelessMember q ∈ rs ∧ text = q.storedNameless
  symbols : l.symbols = History.symbols h
  references : l.references = History.references h
  locals : l.locals = History.locals h
  qualifiers : l.qualifiers = History.qualifiers h
  atomicRanges : l.atomicRanges = h.filterMap (·.1.atomicRange?)
  errors : l.errors = h.filterMap (·.1.error?)

namespace Tells

variable {rs rs' : List Recording} {h : List Note} {l l' : Listing} {r : Recording} {v : Value}

theorem empty : Tells [] [] {} where
  consistent := Listing.consistent_empty
  answered := by simp
  recorded := by simp
  keys := by simp
  symbols := rfl
  references := rfl
  locals := rfl
  qualifiers := rfl
  atomicRanges := rfl
  errors := rfl

theorem more (t : Tells rs h l) (sub : rs ⊆ rs') : Tells rs' h l where
  consistent := t.consistent
  answered := t.answered
  recorded n hn x hx := ⟨(t.recorded n hn x hx).1.mono sub, (t.recorded n hn x hx).2⟩
  keys text i hkey := by
    rcases t.keys text i hkey with recorded | ⟨q, hq, nameless⟩
    · exact .inl recorded
    · exact .inr ⟨q, sub hq, nameless⟩
  symbols := t.symbols
  references := t.references
  locals := t.locals
  qualifiers := t.qualifiers
  atomicRanges := t.atomicRanges
  errors := t.errors

/-- What is shown in a table has an identifier. -/
theorem numbered (t : Tells rs h l) [DecidableEq κ] {topic : Recording → Option α} {key : α → κ}
    (isAnswered : ∀ r a, topic r = some a → r.isAnsweredById = true) :
    ∀ f ∈ firsts topic key h, ∃ j, f.answer = .number j := by
  intro f hf
  obtain ⟨r, mem, told⟩ := mem_firsts hf
  exact t.answered _ mem (isAnswered r _ told)

/-! What is recorded about something else leaves a table as it is. -/

theorem symbols_next (t : Tells rs h l) (other : r.concernsSymbols = false) :
    l.symbols = History.symbols (h ++ [(r, v)]) :=
  t.symbols.trans (History.symbols_of_other other).symm

theorem references_next (t : Tells rs h l) (other : r.concernsReferences = false) :
    l.references = History.references (h ++ [(r, v)]) :=
  t.references.trans (History.references_of_other other).symm

theorem locals_next (t : Tells rs h l) (other : r.concernsLocals = false) :
    l.locals = History.locals (h ++ [(r, v)]) :=
  t.locals.trans (History.locals_of_other other).symm

theorem qualifiers_next (t : Tells rs h l) (other : r.qualifier? = none) :
    l.qualifiers = History.qualifiers (h ++ [(r, v)]) :=
  t.qualifiers.trans (History.qualifiers_of_other other).symm

theorem answered_next (t : Tells rs h l) (answered : r.isAnsweredById = true → ∃ i, v = .number i) :
    ∀ n ∈ h ++ [(r, v)], n.1.isAnsweredById = true → ∃ i, n.2 = .number i := by
  intro n hn
  rcases List.mem_append.mp hn with hn | hn
  · exact t.answered n hn
  · obtain rfl := List.mem_singleton.mp hn
    exact answered

theorem keys_next (t : Tells rs h l) {text : String} {i : Int} (mem : (text, i) ∈ l.keys) :
    (∃ n ∈ h ++ [(r, v)], ∃ x, n.1.thing? = some x ∧ text = x.key) ∨
      ∃ q, .namelessMember q ∈ rs ∧ text = q.storedNameless := by
  rcases t.keys text i mem with ⟨n, hn, x, hx⟩ | nameless
  · exact .inl ⟨n, List.mem_append_left _ hn, x, hx⟩
  · exact .inr nameless

/-- A recording that adds no symbol and no file. -/
theorem append (t : Tells rs h l) (consistent : l'.Consistent)
    (answered : r.isAnsweredById = true → ∃ i, v = .number i) (none : r.thing? = none)
    (keys : l'.keys = l.keys) (symbols : l'.symbols = History.symbols (h ++ [(r, v)]))
    (references : l'.references = History.references (h ++ [(r, v)]))
    (locals : l'.locals = History.locals (h ++ [(r, v)]))
    (qualifiers : l'.qualifiers = History.qualifiers (h ++ [(r, v)]))
    (atomicRanges : l'.atomicRanges = l.atomicRanges ++ r.atomicRange?.toList)
    (errors : l'.errors = l.errors ++ r.error?.toList) : Tells rs (h ++ [(r, v)]) l' where
  consistent := consistent
  answered := t.answered_next answered
  recorded := by
    intro n hn x hx
    rcases List.mem_append.mp hn with hn | hn
    · rw [keys]
      exact t.recorded n hn x hx
    · obtain rfl := List.mem_singleton.mp hn
      rw [none] at hx
      cases hx
  keys := by
    intro text i hkey
    rw [keys] at hkey
    exact t.keys_next hkey
  symbols := symbols
  references := references
  locals := locals
  qualifiers := qualifiers
  atomicRanges := by
    rw [atomicRanges, t.atomicRanges, List.filterMap_append]
    cases hr : r.atomicRange? <;> simp [hr]
  errors := by
    rw [errors, t.errors, List.filterMap_append]
    cases hr : r.error? <;> simp [hr]

/-! ### Symbols and files -/

/-- A symbol or file has its key if and only if it has come up. -/
theorem lookup_isSome_iff (t : Tells rs h l) (apart : KeysApart rs) {x : Thing}
    (recorded : x.RecordedBy rs) :
    (l.keys.lookup x.key).isSome = true ↔ ∃ n ∈ h, n.1.thing? = some x := by
  constructor
  · intro known
    obtain ⟨i, hi⟩ := Option.isSome_iff_exists.mp known
    obtain ⟨before, after, split, -⟩ := List.lookup_eq_some_iff.mp hi
    rcases t.keys x.key i (by simp [split]) with ⟨n, hn, y, hy, same⟩ | ⟨q, hq, nameless⟩
    · rw [Thing.key_inj apart recorded (t.recorded n hn y hy).1 same]
      exact ⟨n, hn, hy⟩
    · exact absurd nameless (Thing.key_ne_storedNameless apart recorded hq)
  · rintro ⟨n, hn, hx⟩
    obtain ⟨-, i, -, hkey⟩ := t.recorded n hn x hx
    by_contra unknown
    rw [Bool.not_eq_true, Option.isSome_eq_false_iff, Option.isNone_iff_eq_none] at unknown
    simpa using List.lookup_eq_none_iff.mp unknown _ hkey

/-- A recording of a symbol or file. -/
theorem appendThing (t : Tells rs h l) {x : Thing} (recorded : x.RecordedBy rs)
    (told : r.thing? = some x) {i : Int} (consistent : l'.Consistent)
    (keys : l'.keys = l.keys ∨ l'.keys = l.keys ++ [(x.key, i)]) (hkey : (x.key, i) ∈ l'.keys)
    (symbols : l'.symbols = History.symbols (h ++ [(r, .number i)]))
    (references : l'.references = l.references) (locals : l'.locals = l.locals)
    (qualifiers : l'.qualifiers = l.qualifiers) (atomicRanges : l'.atomicRanges = l.atomicRanges)
    (errors : l'.errors = l.errors) : Tells rs (h ++ [(r, .number i)]) l' := by
  have others : r.concernsReferences = false ∧ r.concernsLocals = false ∧ r.qualifier? = none ∧
      r.atomicRange? = none ∧ r.error? = none := by
    cases r <;> first | exact ⟨rfl, rfl, rfl, rfl, rfl⟩ | cases told
  obtain ⟨noReference, noLocal, noQualifier, noRange, noError⟩ := others
  refine ⟨consistent, t.answered_next fun _ => ⟨i, rfl⟩, ?_, ?_, symbols,
    references.trans (t.references_next noReference), locals.trans (t.locals_next noLocal),
    qualifiers.trans (t.qualifiers_next noQualifier), ?_, ?_⟩
  · intro n hn y hy
    rcases List.mem_append.mp hn with hn | hn
    · obtain ⟨recorded, j, hj, mem⟩ := t.recorded n hn y hy
      refine ⟨recorded, j, hj, ?_⟩
      rcases keys with keys | keys <;> rw [keys]
      · exact mem
      · exact List.mem_append_left _ mem
    · obtain rfl := List.mem_singleton.mp hn
      obtain rfl := Option.some.inj (told.symm.trans hy)
      exact ⟨recorded, i, rfl, hkey⟩
  · intro text j mem
    rcases keys with keys | keys <;> rw [keys] at mem
    · exact t.keys_next mem
    · rcases List.mem_append.mp mem with mem | mem
      · exact t.keys_next mem
      · obtain ⟨rfl, rfl⟩ := Prod.mk.inj (List.mem_singleton.mp mem)
        exact .inl ⟨_, List.mem_append_right _ (List.mem_singleton.mpr rfl), x, told, rfl⟩
  · simp [atomicRanges, t.atomicRanges, noRange]
  · simp [errors, t.errors, noError]

/-- A symbol or file is shown where it comes up first. -/
theorem addSymbol (t : Tells rs h l) (apart : KeysApart rs) {x : Thing}
    (recorded : x.RecordedBy rs) (told : r.thing? = some x) {entry : Int → SymbolEntry}
    (hentry : ∀ i, entry i = History.symbolEntry ⟨x, .number i, []⟩) :
    Tells rs (h ++ [(r, .number (l.addSymbol x.key entry).1)]) (l.addSymbol x.key entry).2 := by
  have own : ∀ i, (entry i).id = i := by
    intro i
    rw [hentry]
    rfl
  obtain ⟨leads, -⟩ := l.leads_addSymbol x.key own
  have consistent := leads.consistent t.consistent
  have shown : ∀ v, History.symbols (h ++ [(r, v)]) =
      History.symbols h ++ (fresh Recording.thing? id h (r, v)).map History.symbolEntry := by
    intro v
    rw [History.symbols, map_firsts_append]
    refine congrArg (· ++ _) (List.map_congr_left fun f _ => History.symbolEntry_extend f ?_)
    cases r <;> first | exact ⟨rfl, rfl, rfl, rfl, rfl⟩ | cases told
  unfold Listing.addSymbol at consistent ⊢
  cases found : l.keys.lookup x.key with
  | some i =>
    rw [found] at consistent
    obtain ⟨before, after, split, -⟩ := List.lookup_eq_some_iff.mp found
    obtain ⟨n, hn, hx⟩ := (t.lookup_isSome_iff apart recorded).mp (by rw [found]; rfl)
    obtain ⟨f, hf, same⟩ : ∃ f ∈ firsts Recording.thing? id h, f.what = x := exists_first hn hx
    refine t.appendThing recorded told consistent (.inl rfl) (by simp [split]) ?_ rfl rfl rfl rfl
      rfl
    rw [shown, fresh_of_known told hf same, List.map_nil, List.append_nil]
    exact t.symbols
  | none =>
    rw [found] at consistent
    have new : ∀ f ∈ firsts Recording.thing? id h, id f.what ≠ id x := by
      rintro f hf rfl
      obtain ⟨r', mem, told'⟩ := mem_firsts hf
      have known := (t.lookup_isSome_iff apart recorded).mpr ⟨_, mem, told'⟩
      rw [found] at known
      cases known
    refine t.appendThing recorded told consistent (.inr rfl)
      (List.mem_append_right _ (List.mem_singleton.mpr rfl)) ?_ rfl rfl rfl rfl rfl
    rw [shown, fresh_of_new told new, List.map_singleton, ← hentry]
    exact congrArg (· ++ _) t.symbols

/-- One more thing is known about a symbol. -/
theorem changeSymbol (t : Tells rs h l) {i : Value} {g : SymbolEntry → SymbolEntry}
    (told : r.change? = some (i, g)) : Tells rs (h ++ [(r, v)]) (l.changeSymbol i g) := by
  have others : r.thing? = none ∧ r.isAnsweredById = false ∧ r.concernsReferences = false ∧
      r.concernsLocals = false ∧ r.qualifier? = none ∧ r.atomicRange? = none ∧
      r.error? = none := by
    cases r <;> first | exact ⟨rfl, rfl, rfl, rfl, rfl, rfl, rfl⟩ | cases told
  obtain ⟨noThing, noAnswer, noReference, noLocal, noQualifier, noRange, noError⟩ := others
  have own : ∀ e, (g e).id = e.id := by
    intro e
    cases r <;> cases told <;> rfl
  have numbered : ∀ f ∈ firsts Recording.thing? id h, ∃ j, f.answer = .number j :=
    t.numbered fun r x told => by cases r <;> first | rfl | cases told
  refine t.append ((l.leads_changeSymbol i own).consistent t.consistent) (by simp [noAnswer])
    noThing rfl ?_ (t.references_next noReference) (t.locals_next noLocal)
    (t.qualifiers_next noQualifier) (by simp [noRange, Listing.changeSymbol])
    (by simp [noError, Listing.changeSymbol])
  rw [Listing.changeSymbol, t.symbols]
  exact map_firsts_change noThing numbered (fun f => rfl)
    (History.symbolEntry_extend_of_change told)

/-! ### References -/

theorem addReference (t : Tells rs h l) (context target : Value) (kind : ReferenceKind) :
    Tells rs (h ++ [(.reference context target kind,
        .number (l.addReference context target kind).1)])
      (l.addReference context target kind).2 := by
  obtain ⟨leads, -⟩ := l.leads_addReference context target kind
  have consistent := leads.consistent t.consistent
  have shown : ∀ v, History.references (h ++ [(.reference context target kind, v)]) =
      if l.references.any (·.written = writtenReference context target kind) then l.references
      else l.references ++ [History.referenceEntry ⟨⟨context, target, kind⟩, v, []⟩] := by
    intro v
    rw [t.references]
    exact map_firsts_tell rfl (fun f => History.referenceEntry_extend f rfl) fun _ => rfl
  unfold Listing.addReference at consistent ⊢
  cases found : l.references.find? (·.written = writtenReference context target kind) with
  | some e =>
    rw [found] at consistent
    have kept := List.find?_some found
    have known : l.references.any (·.written = writtenReference context target kind) = true :=
      List.any_eq_true.mpr ⟨e, List.mem_of_find?_eq_some found, kept⟩
    refine t.append consistent (fun _ => ⟨_, rfl⟩) rfl rfl (t.symbols_next rfl) ?_
      (t.locals_next rfl) (t.qualifiers_next rfl) (List.append_nil _).symm
      (List.append_nil _).symm
    rw [shown, if_pos known]
  | none =>
    rw [found] at consistent
    have new : l.references.any (·.written = writtenReference context target kind) = false := by
      simpa using List.find?_eq_none.mp found
    refine t.append consistent (fun _ => ⟨_, rfl⟩) rfl rfl (t.symbols_next rfl) ?_
      (t.locals_next rfl) (t.qualifiers_next rfl) (List.append_nil _).symm
      (List.append_nil _).symm
    rw [shown, new]
    rfl

theorem placeReference (t : Tells rs h l) (i : Value) (range : Extent) :
    Tells rs (h ++ [(.referenceLocation i range, v)]) (l.placeReference i range) := by
  have numbered : ∀ f ∈ firsts Recording.link? Link.written h, ∃ j, f.answer = .number j :=
    t.numbered fun r x told => by cases r <;> first | rfl | cases told
  refine t.append ((l.leads_placeReference i range).consistent t.consistent) (fun h => by cases h)
    rfl rfl (t.symbols_next rfl) ?_ (t.locals_next rfl) (t.qualifiers_next rfl)
    (List.append_nil _).symm (List.append_nil _).symm
  rw [Listing.placeReference, t.references]
  refine map_firsts_change rfl numbered (fun f => rfl) fun f => ?_
  rw [History.referenceEntry, First.extend, about_append, about_of_some rfl]
  split
  · simp [History.referenceEntry]
  · simp [History.referenceEntry]

/-! ### Local variables -/

theorem addLocal (t : Tells rs h l) (name : String) :
    Tells rs (h ++ [(.localSymbol name, .number (l.addLocal name).1)]) (l.addLocal name).2 := by
  obtain ⟨leads, -⟩ := l.leads_addLocal name
  have consistent := leads.consistent t.consistent
  have shown : ∀ v, History.locals (h ++ [(.localSymbol name, v)]) =
      if l.locals.any (·.name = name) then l.locals
      else l.locals ++ [History.localEntry ⟨name, v, []⟩] := by
    intro v
    rw [t.locals]
    exact map_firsts_tell rfl (fun f => History.localEntry_extend f rfl) fun _ => rfl
  unfold Listing.addLocal at consistent ⊢
  cases found : l.locals.find? (·.name = name) with
  | some e =>
    rw [found] at consistent
    have kept := List.find?_some found
    have known : l.locals.any (·.name = name) = true :=
      List.any_eq_true.mpr ⟨e, List.mem_of_find?_eq_some found, kept⟩
    refine t.append consistent (fun _ => ⟨_, rfl⟩) rfl rfl (t.symbols_next rfl)
      (t.references_next rfl) ?_ (t.qualifiers_next rfl) (List.append_nil _).symm
      (List.append_nil _).symm
    rw [shown, if_pos known]
  | none =>
    rw [found] at consistent
    have new : l.locals.any (·.name = name) = false := by
      simpa using List.find?_eq_none.mp found
    refine t.append consistent (fun _ => ⟨_, rfl⟩) rfl rfl (t.symbols_next rfl)
      (t.references_next rfl) ?_ (t.qualifiers_next rfl) (List.append_nil _).symm
      (List.append_nil _).symm
    rw [shown, new]
    rfl

theorem placeLocal (t : Tells rs h l) (i : Value) (range : Extent) :
    Tells rs (h ++ [(.localLocation i range, v)]) (l.placeLocal i range) := by
  have numbered : ∀ f ∈ firsts Recording.localName? id h, ∃ j, f.answer = .number j :=
    t.numbered fun r x told => by cases r <;> first | rfl | cases told
  refine t.append ((l.leads_placeLocal i range).consistent t.consistent) (fun h => by cases h)
    rfl rfl (t.symbols_next rfl) (t.references_next rfl) ?_ (t.qualifiers_next rfl)
    (List.append_nil _).symm (List.append_nil _).symm
  rw [Listing.placeLocal, t.locals]
  refine map_firsts_change rfl numbered (fun f => rfl) fun f => ?_
  rw [History.localEntry, First.extend, about_append, about_of_some rfl]
  split
  · rfl
  · simp [History.localEntry]

/-! ### Qualifiers -/

theorem placeQualifier (t : Tells rs h l) (i : Value) (range : Extent) :
    Tells rs (h ++ [(.qualifierLocation i range, v)]) (l.placeQualifier i range) := by
  have told : (Recording.qualifierLocation i range).qualifier? = some i := rfl
  have leads : Listing.Leads l (l.placeQualifier i range) :=
    Listing.leads_quiet rfl rfl rfl rfl rfl
  refine t.append (leads.consistent t.consistent) (fun h => by cases h) rfl rfl
    (t.symbols_next rfl) (t.references_next rfl) (t.locals_next rfl) ?_ (List.append_nil _).symm
    (List.append_nil _).symm
  have one : ∀ j, about j Recording.qualifierPlace? [(.qualifierLocation i range, v)] =
      if i.plain = j.plain then [range] else [] := fun j => about_of_some rfl
  rw [Listing.placeQualifier, t.qualifiers, History.qualifiers, History.qualifiers,
    map_firsts_append]
  split
  · rename_i known
    obtain ⟨e, he, same⟩ := List.any_eq_true.mp known
    obtain ⟨f, hf, rfl⟩ := List.mem_map.mp he
    rw [fresh_of_known told hf (of_decide_eq_true same), List.map_nil, List.append_nil,
      List.map_map]
    refine List.map_congr_left fun f _ => ?_
    simp only [Function.comp, First.extend, about_append, one]
    by_cases equal : f.what.plain = i.plain
    · rw [if_pos equal, if_pos equal.symm]
    · rw [if_neg equal, if_neg (Ne.symm equal), List.append_nil]
  · rename_i unknown
    have new : ∀ f ∈ firsts Recording.qualifier? Value.plain h, f.what.plain ≠ i.plain :=
      fun f hf equal => unknown (List.any_eq_true.mpr ⟨_, List.mem_map_of_mem hf,
        decide_eq_true equal⟩)
    have none : about i Recording.qualifierPlace? h = [] := by
      refine List.filterMap_eq_nil_iff.mpr fun n hn => ?_
      obtain ⟨r, w⟩ := n
      cases r with
      | qualifierLocation j place =>
        obtain ⟨f, hf, same⟩ :
            ∃ f ∈ firsts Recording.qualifier? Value.plain h, f.what.plain = j.plain :=
          exists_first hn rfl
        have other : j.plain ≠ i.plain := same ▸ new f hf
        simp [Recording.qualifierPlace?, other]
      | _ => rfl
    rw [fresh_of_new told new, List.map_singleton, about_append, none, one, if_pos rfl]
    refine congrArg (· ++ _) (List.map_congr_left fun f hf => ?_)
    simp only [First.extend, about_append, one]
    rw [if_neg (Ne.symm (new f hf)), List.append_nil]

/-! ### All recordings -/

/-- A recording that leaves the tables as they are. -/
theorem other (t : Tells rs h l) (answered : r.isAnsweredById = true → ∃ i, v = .number i)
    (others : r.thing? = none ∧ r.concernsSymbols = false ∧ r.concernsReferences = false ∧
      r.concernsLocals = false ∧ r.qualifier? = none) (next : l'.nextId = l.nextId)
    (keys : l'.keys = l.keys) (symbols : l'.symbols = l.symbols)
    (references : l'.references = l.references) (locals : l'.locals = l.locals)
    (qualifiers : l'.qualifiers = l.qualifiers)
    (atomicRanges : l'.atomicRanges = l.atomicRanges ++ r.atomicRange?.toList)
    (errors : l'.errors = l.errors ++ r.error?.toList) : Tells rs (h ++ [(r, v)]) l' := by
  obtain ⟨noThing, noSymbol, noReference, noLocal, noQualifier⟩ := others
  refine t.append ((Listing.leads_quiet next keys symbols references locals).consistent
    t.consistent) answered noThing keys (symbols.trans (t.symbols_next noSymbol))
    (references.trans (t.references_next noReference)) (locals.trans (t.locals_next noLocal))
    (qualifiers.trans (t.qualifiers_next noQualifier)) atomicRanges errors

/-- What has no name gets an identifier but is not shown. -/
theorem recordNameless (t : Tells rs h l) {owner : QualifiedName}
    (recorded : .namelessMember owner ∈ rs) :
    Tells rs (h ++ (l.notes (.namelessMember owner)).1) (l.notes (.namelessMember owner)).2 := by
  cases found : l.keys.lookup owner.storedNameless with
  | some i =>
    have answer : Listing.record (.namelessMember owner) l = .ok (.number i) l := by
      rw [Listing.record, Listing.recordNameless, found]
    change Tells rs (h ++ ((Listing.Operation.record (.namelessMember owner)).perform l).1) _
    rw [Listing.notes_snd, Listing.Operation.perform_of_ok answer]
    exact t.other (fun _ => ⟨i, rfl⟩) ⟨rfl, rfl, rfl, rfl, rfl⟩ rfl rfl rfl rfl rfl rfl
      (List.append_nil _).symm (List.append_nil _).symm
  | none =>
    have refused : Listing.record (.namelessMember owner) l =
        .error (.notText Value.null.typeName) (l.addKey owner.storedNameless).2 := by
      rw [Listing.record, Listing.recordNameless, found]
    have leads : Listing.Leads l { (l.addKey owner.storedNameless).2 with
        symbols := l.symbols ++ [] } := Listing.leads_addKey found (by simp)
    rw [List.append_nil] at leads
    change Tells rs (h ++ ((Listing.Operation.record (.namelessMember owner)).perform l).1) _
    rw [Listing.notes_snd, Listing.Operation.perform_of_error refused, List.append_nil]
    refine ⟨leads.consistent t.consistent, t.answered, fun n hn x hx => ?_, fun text i mem => ?_,
      t.symbols, t.references, t.locals, t.qualifiers, t.atomicRanges, t.errors⟩
    · obtain ⟨recorded, i, hi, mem⟩ := t.recorded n hn x hx
      exact ⟨recorded, i, hi, List.mem_append_left _ mem⟩
    · rcases List.mem_append.mp mem with mem | mem
      · exact t.keys text i mem
      · exact .inr ⟨owner, recorded, (Prod.mk.inj (List.mem_singleton.mp mem)).1⟩

/-- What has no name is refused when it comes up first, and is not shown. -/
theorem refuses_nameless (t : Tells rs h l) {owner : QualifiedName}
    (apart : KeysApart (rs ++ [.namelessMember owner])) (new : .namelessMember owner ∉ rs) :
    Listing.record (.namelessMember owner) l =
      .error (.notText "NoneType") (l.addKey owner.storedNameless).2 := by
  have missing : l.keys.lookup owner.storedNameless = none := by
    refine List.lookup_eq_none_iff.mpr fun p hp => ?_
    suffices other : p.1 ≠ owner.storedNameless by simpa using other.symm
    rcases t.keys p.1 p.2 hp with ⟨n, hn, x, told, key⟩ | ⟨q, hq, key⟩
    · rw [key]
      exact Thing.key_ne_storedNameless apart
        ((t.recorded n hn x told).1.mono (List.subset_append_left _ _)) (by simp)
    · rw [key]
      exact fun same => new (QualifiedName.storedNameless_inj same ▸ hq)
  rw [Listing.record, Listing.recordNameless, missing]
  rfl

/-- One recording keeps the tables in line with the history. -/
theorem record (t : Tells rs h l) (r : Recording) (apart : KeysApart (rs ++ [r])) :
    Tells (rs ++ [r]) (h ++ (l.notes r).1) (l.notes r).2 := by
  have own : r ∈ rs ++ [r] := List.mem_append_right _ (List.mem_singleton.mpr rfl)
  replace t := t.more (List.subset_append_left rs [r])
  generalize rs ++ [r] = rs at t apart own
  cases r with
  | file path => exact t.addSymbol (x := .file path) apart own rfl fun _ => rfl
  | symbol name =>
    have recorded : (Thing.symbol name).RecordedBy rs := ⟨_, own, rfl, by simp⟩
    exact t.addSymbol apart recorded rfl fun _ => rfl
  | namelessMember owner => exact t.recordNameless own
  | namelessSymbol | ambiguousReference =>
    change Tells rs (h ++ []) l
    rwa [List.append_nil]
  | fileLanguage =>
    exact t.other (fun h => by cases h) ⟨rfl, rfl, rfl, rfl, rfl⟩ rfl rfl rfl rfl rfl rfl
      (List.append_nil _).symm (List.append_nil _).symm
  | definitionKind | symbolKind | symbolLocation | scopeLocation | signatureLocation =>
    exact t.changeSymbol rfl
  | reference context target kind => exact t.addReference context target kind
  | referenceLocation i range => exact t.placeReference i range
  | unsolvedReference context kind range =>
    have recorded : (Thing.symbol .unsolved).RecordedBy rs := ⟨_, own, rfl, by simp⟩
    have named : Tells rs (h ++ [(.symbol .unsolved, .number (l.addNamed .unsolved).1)])
        (l.addNamed .unsolved).2 := t.addSymbol apart recorded rfl fun _ => rfl
    have referred := named.addReference context (.number (l.addNamed .unsolved).1) kind
    have placed := referred.placeReference (v := .null)
      (.number ((l.addNamed .unsolved).2.addReference context
        (.number (l.addNamed .unsolved).1) kind).1) range
    rwa [List.append_assoc, List.append_assoc] at placed
  | qualifierLocation i range => exact t.placeQualifier i range
  | localSymbol name => exact t.addLocal name
  | localLocation i range => exact t.placeLocal i range
  | atomicRange range =>
    exact t.other (fun h => by cases h) ⟨rfl, rfl, rfl, rfl, rfl⟩ rfl rfl rfl rfl rfl rfl
      rfl (List.append_nil _).symm
  | error message fatal range =>
    cases message with
    | text message =>
      exact t.other (fun h => by cases h) ⟨rfl, rfl, rfl, rfl, rfl⟩ rfl rfl rfl rfl rfl rfl
        (List.append_nil _).symm rfl
    | null | flag | number =>
      change Tells rs (h ++ []) l
      rwa [List.append_nil]

/-- So do recordings one after the other. -/
theorem history (t : Tells rs h l) (next : List Recording) (apart : KeysApart (rs ++ next)) :
    Tells (rs ++ next) (h ++ l.history next) (l.performAll (next.map .record)).2 := by
  induction next generalizing rs h l with
  | nil =>
    change Tells (rs ++ []) (h ++ []) l
    rwa [List.append_nil, List.append_nil]
  | cons r next ih =>
    rw [List.append_cons] at apart
    have first := t.record r (apart.of_subset (List.subset_append_left _ _))
    have rest := ih first apart
    rw [← List.append_cons, List.append_assoc, l.notes_snd r] at rest
    rw [Listing.history, l.notes_snd r]
    exact rest

/-! ### Lines -/

/-- An identifier is shown by the name of what it was given out for. -/
theorem nameOf (t : Tells rs h l) (i : Value) : l.nameOf i = History.nameOf h i := by
  have numbered : ∀ f ∈ firsts Recording.thing? id h, ∃ j, f.answer = .number j :=
    t.numbered fun r x told => by cases r <;> first | rfl | cases told
  have same : ∀ f ∈ firsts Recording.thing? id h,
      decide (some (History.symbolEntry f).id = i.number?) = decide (f.answer.plain = i.plain) := by
    intro f hf
    obtain ⟨j, hj⟩ := numbered f hf
    refine decide_eq_decide.mpr ?_
    rw [eq_comm (a := f.answer.plain), hj, Value.plain_eq_number, History.symbolEntry, hj]
    rfl
  have found : l.symbol? i = ((firsts Recording.thing? id h).find?
      fun f => f.answer.plain = i.plain).map History.symbolEntry := by
    rw [Listing.symbol?, t.symbols, History.symbols, List.find?_map]
    exact congrArg _ (List.find?_congr same)
  rw [Listing.nameOf, found, History.nameOf]
  cases (firsts Recording.thing? id h).find? fun f => f.answer.plain = i.plain <;> rfl

/-- A name belongs to every identifier that was given out for a symbol or file. -/
theorem nameOf_recorded (t : Tells rs h l) (apart : KeysApart rs) {n : Note} (hn : n ∈ h)
    {x : Thing} (told : n.1.thing? = some x) : History.nameOf h n.2 = x.name := by
  obtain ⟨recorded, i, hi, hkey⟩ := t.recorded n hn x told
  obtain ⟨f, hf, rfl⟩ : ∃ f ∈ firsts Recording.thing? id h, f.what = x := exists_first hn told
  have owner : ∀ g ∈ firsts Recording.thing? id h,
      g.answer.plain = n.2.plain → g.what = f.what := by
    intro g hg same
    obtain ⟨r, mem, told'⟩ := mem_firsts hg
    obtain ⟨recorded', j, hj, hkey'⟩ := t.recorded _ mem _ told'
    obtain rfl : i = j := by
      have equal : Value.number j = Value.number i := by
        rw [show g.answer = .number j from hj, hi] at same
        exact same
      exact (Value.number.inj equal).symm
    have one : Item.key g.what.key = .key f.what.key :=
      t.consistent.distinct (x := .key g.what.key) hkey' hkey
    exact Thing.key_inj apart recorded' recorded (Item.key.inj one)
  unfold History.nameOf
  cases found : (firsts Recording.thing? id h).find? fun g => g.answer.plain = n.2.plain with
  | some g =>
    have same : g.answer.plain = n.2.plain := by simpa using List.find?_some found
    exact congrArg Thing.name (owner g (List.mem_of_find?_eq_some found) same)
  | none =>
    obtain ⟨r, mem, told'⟩ := mem_firsts hf
    obtain ⟨-, j, hj, hkey'⟩ := t.recorded _ mem _ told'
    obtain rfl : i = j := t.consistent.unique (x := .key f.what.key) hkey hkey'
    refine absurd ?_ (List.find?_eq_none.mp found f hf)
    rw [show f.answer = .number i from hj, hi]
    exact decide_eq_true rfl

end Tells

theorem SymbolEntry.line_isEmpty (e : SymbolEntry) : e.line.isEmpty = false := by
  refine Listing.trim_isEmpty_eq_false (c := ':') ?_ (by decide)
  cases e.kind <;> simp [String.toList_append]

namespace Listing

theorem shownReference_isEmpty (l : Listing) (e : ReferenceEntry) (place : Option Extent) :
    (l.referenceLine e place).isEmpty = false := by
  refine trim_isEmpty_eq_false (c := ':') ?_ (by decide)
  simp [String.toList_append]

/-- The lines of a reference: one for each of its places, or one without a place. -/
def shownLines (l : Listing) (e : ReferenceEntry) : List String :=
  (if e.places.isEmpty then [none] else e.places).map (l.referenceLine e)

theorem references_read (l : Listing) :
    l.read.1.references = l.references.flatMap l.shownLines := by
  change (l.settle.references.flatMap fun e => e.places.map (l.referenceLine e)).filter
    (fun s => !s.isEmpty) = _
  rw [List.filter_eq_self.mpr]
  · rw [settle, List.flatMap_map]
    refine List.flatMap_congr fun e _ => ?_
    rw [shownLines]
    split <;> rfl
  · intro line hline
    obtain ⟨e, -, hline⟩ := List.mem_flatMap.mp hline
    obtain ⟨place, -, rfl⟩ := List.mem_map.mp hline
    rw [shownReference_isEmpty]
    rfl

end Listing

/-- A reference is shown at the places of the history. -/
theorem History.places_referenceEntry (f : First Link) :
    (if (referenceEntry f).places.isEmpty then [none] else (referenceEntry f).places) =
      showings (about f.answer Recording.referencePlace? f.later) := by
  cases places : about f.answer Recording.referencePlace? f.later <;>
    simp [referenceEntry, places, showings]

theorem rangeClause_eq (words : String) (range : Option Extent) :
    rangeClause words range = History.clause words range := by
  cases range <;> rfl

/-- The line of a symbol or file, written out. -/
theorem History.line_symbolEntry (f : First Thing) : (symbolEntry f).line =
    Text.trim (((latest f.answer Recording.definition? f.later).or f.what.definition?).getD
        "NON-INDEXED" ++ " " ++
      ((latest f.answer Recording.kind? f.later).or f.what.kind?).getD "SYMBOL" ++ ": " ++
      f.what.name ++ clause " at " (latest f.answer Recording.place? f.later) ++
      clause " with scope " (latest f.answer Recording.scope? f.later) ++
      clause " with signature " (latest f.answer Recording.signature? f.later)) := by
  unfold SymbolEntry.line symbolEntry
  simp only [rangeClause_eq]
  cases (latest f.answer Recording.definition? f.later).or f.what.definition? <;>
    cases (latest f.answer Recording.kind? f.later).or f.what.kind? <;>
    simp [String.append_assoc]

/-- The lines of a listing are those of its history. -/
theorem Tells.read {rs : List Recording} {h : List Note} {l : Listing} (t : Tells rs h l) :
    l.read.1 = History.view h := by
  have names : ∀ i, l.settle.nameOf i = History.nameOf h i := t.nameOf
  have symbols : l.settle.lines.symbols = (History.view h).symbols := by
    change (l.symbols.map SymbolEntry.line).filter (fun s => !s.isEmpty) = _
    rw [List.filter_eq_self.mpr, t.symbols, History.symbols, List.map_map]
    · exact List.map_congr_left fun f _ => History.line_symbolEntry f
    · intro line hline
      obtain ⟨e, -, rfl⟩ := List.mem_map.mp hline
      rw [e.line_isEmpty]
      rfl
  have localSymbols : l.settle.lines.localSymbols = (History.view h).localSymbols := by
    change l.locals.flatMap _ = _
    rw [t.locals, History.locals, List.flatMap_map]
    rfl
  have references : l.settle.lines.references = (History.view h).references := by
    change l.read.1.references = _
    rw [l.references_read, t.references, History.references, List.flatMap_map]
    refine List.flatMap_congr fun f _ => ?_
    rw [Listing.shownLines, History.places_referenceEntry]
    refine List.map_congr_left fun place _ => ?_
    rw [Listing.referenceLine, t.nameOf, t.nameOf, rangeClause_eq]
    rfl
  have qualifiers : l.settle.lines.qualifiers = (History.view h).qualifiers := by
    change (l.qualifiers.flatMap fun e => e.places.map fun r =>
      l.settle.nameOf e.symbol ++ " at " ++ r.text) = _
    rw [t.qualifiers, History.qualifiers, List.flatMap_map]
    simp only [names]
    rfl
  have atomicRanges : l.settle.lines.atomicRanges = (History.view h).atomicRanges := by
    change l.atomicRanges.map _ = _
    rw [t.atomicRanges]
    rfl
  have errors : l.settle.lines.errors = (History.view h).errors := by
    change l.errors.map _ = _
    rw [t.errors]
    rfl
  exact (View.mk.injEq _ _ _ _ _ _ _ _ _ _ _ _).mpr
    ⟨symbols, localSymbols, references, qualifiers, atomicRanges, errors⟩

/-- After any recordings on a new listing, its lines are those of the history, unless the path of a
file is the key of something else that is recorded: there is a line for every symbol and file, where
it came up first; for every place of a reference, and for a reference without any; for every place
of a local variable that has a name; and for every place of a qualifier. In these lines an
identifier is shown by the name of the symbol or file that it was given back for. What has no name
has no line: it is refused when it comes up first. -/
theorem listing_shows_history (rs : List Recording) (apart : KeysApart rs) :
    (Listing.performAll {} (rs.map .record)).2.read.1 = History.view (Listing.history {} rs) ∧
      (∀ n ∈ Listing.history {} rs, ∀ x, n.1.thing? = some x →
        History.nameOf (Listing.history {} rs) n.2 = x.name) ∧
      ∀ earlier owner later, rs = earlier ++ .namelessMember owner :: later →
        .namelessMember owner ∉ earlier →
        let l := (Listing.performAll {} (earlier.map .record)).2
        ∃ l', Listing.record (.namelessMember owner) l = .error (.notText "NoneType") l' ∧
          l'.symbols = l.symbols := by
  have tells : ∀ rs, KeysApart rs →
      Tells rs (Listing.history {} rs) (Listing.performAll {} (rs.map .record)).2 :=
    fun rs => Tells.empty.history rs
  refine ⟨(tells rs apart).read, fun n hn x told => (tells rs apart).nameOf_recorded apart hn told,
    fun earlier owner later split new => ?_⟩
  rw [split, List.append_cons] at apart
  have first := apart.of_subset (List.subset_append_left _ _)
  have before := first.of_subset (List.subset_append_left _ _)
  exact ⟨_, (tells earlier before).refuses_nameless first new, rfl⟩

/-- A file, a symbol that comes up twice, references with two places, with none, with an unknown end
and to something unknown, places of a local variable and of a qualifier, a place that is recorded
before there is a reference for it, and something that has no name. -/
def sampleRecordings : List Recording :=
  let range (line : Int) : Extent := SourceRange.extent ⟨line, 1, line, 4⟩
  [.file "a.py", .referenceLocation (.number 3) (range 9), .symbol (.dotted ["f"]),
    .reference (.number 1) (.number 2) .call, .referenceLocation (.number 3) (range 1),
    .symbolKind (.number 2) .function, .reference (.number 2) (.number 9) .usage,
    .symbol (.dotted ["f"]), .unsolvedReference (.number 2) .usage (range 2),
    .localSymbol "f<x>", .localLocation (.number 7) (range 3),
    .referenceLocation (.flag true) (range 4), .referenceLocation (.number 3) (range 5),
    .qualifierLocation (.text "2") (range 6), .namelessMember (.dotted ["f"])]

theorem sampleRecordings_shown :
    let shown := (Listing.performAll {} (sampleRecordings.map .record)).2.read.1
    KeysApart sampleRecordings ∧
      shown = History.view (Listing.history {} sampleRecordings) ∧
      shown.symbols = ["INDEXED FILE: a.py", "NON-INDEXED FUNCTION: f",
        "NON-INDEXED SYMBOL: unsolved symbol"] ∧
      shown.references = ["CALL: a.py -> f at [1:1|1:4]", "CALL: a.py -> f at [5:1|5:4]",
        "USAGE: f -> UNKNOWN SYMBOL", "USAGE: f -> unsolved symbol at [2:1|2:4]"] ∧
      shown.localSymbols = ["f<x> at [3:1|3:4]"] ∧
      shown.qualifiers = ["UNKNOWN SYMBOL at [6:1|6:4]"] ∧
      ∃ l', Listing.record (.namelessMember (.dotted ["f"]))
        (Listing.performAll {} (sampleRecordings.dropLast.map .record)).2 =
          .error (.notText "NoneType") l' := by
  have apart : KeysApart sampleRecordings := by
    intro path hpath
    obtain rfl : path = "a.py" := by simpa [sampleRecordings] using hpath
    decide +kernel
  obtain ⟨shown, -, refused⟩ := listing_shows_history sampleRecordings apart
  obtain ⟨l', stopped, -⟩ := refused sampleRecordings.dropLast (.dotted ["f"]) [] rfl (by decide)
  exact ⟨apart, shown, by decide +kernel, by decide +kernel, by decide +kernel, by decide +kernel,
    l', stopped⟩

/-- A file whose path is the stored form of the name of a symbol has no line of its own. -/
theorem file_hidden_behind_symbol :
    let name := QualifiedName.dotted ["a"]
    let rs : List Recording := [.symbol name, .file name.stored]
    (Listing.performAll {} (rs.map .record)).2.read.1.symbols = ["NON-INDEXED SYMBOL: a"] ∧
      (History.view (Listing.history {} rs)).symbols =
        ["NON-INDEXED SYMBOL: a", "INDEXED FILE: " ++ name.stored] := by
  decide +kernel

end CodeIndex
